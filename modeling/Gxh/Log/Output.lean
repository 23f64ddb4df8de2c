import Gxh.Lib.TSys
import Gxh.Log.Formatter
import Mathlib.Logic.Function.Basic

/-!
# Where events go

`Logger::log`, `FileLogAppender::log` and `reopen`, `StdoutLogAppender::log` (`log.cpp`), and what
happens to the log files meanwhile: they are renamed or deleted, they cannot be opened, the disk is
full. The files that have had a name are numbered in the order in which they were made. A
`std::ofstream` holds back what it is given, at most until the next `std::endl` or `close`.

* `log_appender` — what an event does to one appender and to the files of its name does not depend
  on the other appenders;
* `rotation_followed` — after a rotation no event is lost: the events go to the old file up to the
  first that comes three seconds after the file was opened, and from that one on to the new one;
* `failed_write_ends_log` — after a write that failed, nothing is written any more: `reopen` closes
  a stream only in a good state, and `open` fails for one that is open.
-/

namespace Gxh.Log.Output

open HttpParser (bytes)

/-- `LogLevel::Level` as a number. -/
def level : LogLevel → Nat
  | .FATAL => 0
  | .ALERT => 100
  | .CRIT => 200
  | .ERROR => 300
  | .WARN => 400
  | .NOTICE => 500
  | .INFO => 600
  | .DEBUG => 700
  | .NOTSET => 800

/-! ## Files -/

/-- The files that have had one name, and the one that has it. -/
structure Files where
  content : Nat → Str
  made : Nat
  named : Option Nat

namespace Files

/-- Open for appending, which makes the file if there is none. -/
def openAppend (d : Files) : Files × Nat :=
  match d.named with
  | some k => (d, k)
  | none =>
      ({ content := Function.update d.content d.made [], made := d.made + 1, named := some d.made },
        d.made)

def append (d : Files) (k : Nat) (text : Str) : Files :=
  { d with content := Function.update d.content k (d.content k ++ text) }

/-- The file is deleted, or gets another name. -/
def unlink (d : Files) : Files := { d with named := none }

end Files

/-- `std::ofstream`: the file that its buffer has open, `operator bool`, and what is in the buffer
and not yet in the file. -/
structure FileStream where
  file : Option Nat
  good : Bool
  held : Str
  deriving DecidableEq, Repr

/-- How the calls for one event go. -/
structure Io where
  /-- whether the file can be opened -/
  opens : Bool
  /-- if `close` cannot write out the buffer, how many bytes of it get into the file -/
  closes : Option Nat
  /-- how many bytes the buffer keeps, if no `std::endl` has them written out -/
  keeps : Nat
  /-- if a write fails, after how many bytes, and what the buffer has then -/
  fails : Option (Nat × Str)

namespace FileStream

/-- `close()`, which fails for a buffer that is not open. -/
def close (st : FileStream) (d : Files) (fails : Option Nat) : FileStream × Files :=
  match st.file, fails with
  | none, _ => ({ st with good := false }, d)
  | some k, none => ({ st with file := none, held := [] }, d.append k st.held)
  | some k, some n => (⟨none, false, []⟩, d.append k (st.held.take n))

/-- `open(m_filename, std::ios::app)`, which fails for a buffer that is open. -/
def openFile (st : FileStream) (d : Files) (opens : Bool) : FileStream × Files :=
  if st.file.isSome || !opens then ({ st with good := false }, d)
  else (⟨some d.openAppend.2, true, []⟩, d.openAppend.1)

/-- The text of an event, of which at most `room` bytes and what was held before may be held back.
A stream in a bad state takes nothing. -/
def write (st : FileStream) (d : Files) (text : Str) (room : Nat) (io : Io) : FileStream × Files :=
  match st.file, st.good with
  | some k, true =>
      let data := st.held ++ text
      match io.fails with
      | none =>
          let n := data.length - min io.keeps room
          (⟨some k, true, data.drop n⟩, d.append k (data.take n))
      | some (n, rest) => (⟨some k, false, rest⟩, d.append k (data.take n))
  | _, _ => (st, d)

end FileStream

/-- How much a buffer with `held` in it may hold back after an event: what comes behind the last
`std::endl`, or all of it. -/
def behindEndl (strftime : Str → Int → Str) (fm : LogFormatter) (event : LogEvent) (held : Str) :
    Nat :=
  let last := (fm.items.reverse.takeWhile (· != .NewLine)).reverse
  let n := (last.flatMap (FormatItem.format strftime event)).length
  if .NewLine ∈ fm.items then n else held.length + n

/-- The pattern ends in `%n`. -/
def EndsLine (fm : LogFormatter) : Prop := fm.items.getLast? = some .NewLine

instance (fm : LogFormatter) : Decidable (EndsLine fm) := inferInstanceAs (Decidable (_ = _))

/-! ## Appenders -/

/-- `FileLogAppender`. -/
structure FileLogAppender where
  filename : Str
  formatter : Option LogFormatter
  defaultFormatter : LogFormatter
  stream : FileStream
  lastTime : Nat
  reopenError : Bool
  deriving DecidableEq, Repr

namespace FileLogAppender

/-- `reopen`. -/
def reopen (a : FileLogAppender) (d : Files) (opens : Bool) (closes : Option Nat) :
    FileLogAppender × Files :=
  let r := if a.stream.good then a.stream.close d closes else (a.stream, d)
  let r := r.1.openFile r.2 opens
  ({ a with stream := r.1, reopenError := !r.1.good }, r.2)

/-- `FileLogAppender::FileLogAppender`. -/
def new (file : Str) (defaultFormatter : LogFormatter) (d : Files) (opens : Bool) :
    FileLogAppender × Files :=
  reopen
    { filename := file, formatter := none, defaultFormatter, stream := ⟨none, true, []⟩,
      lastTime := 0, reopenError := false } d opens none

/-- `getFormatter`, and what `log` formats with. -/
def getFormatter (a : FileLogAppender) : LogFormatter := a.formatter.getD a.defaultFormatter

/-- `event->getTime()` as a `uint64_t`. -/
def timeOf (event : LogEvent) : Nat := (BitVec.ofInt 64 event.time).toNat

/-- The file is opened again before an event of this time. -/
def due (a : FileLogAppender) (event : LogEvent) : Bool :=
  timeOf event ≥ (a.lastTime + 3) % 2 ^ 64

/-- The part of `log` before the text. -/
def refresh (a : FileLogAppender) (d : Files) (event : LogEvent) (io : Io) :
    FileLogAppender × Files :=
  if a.due event then
    let r := a.reopen d io.opens io.closes
    ({ r.1 with lastTime := timeOf event }, r.2)
  else (a, d)

/-- `log`; `none` if the formatter writes out an undefined `buf`. -/
def log (strftime : Str → Int → Str) (a : FileLogAppender) (d : Files) (event : LogEvent)
    (io : Io) : Option (FileLogAppender × Files) :=
  let (a, d) := a.refresh d event io
  if a.reopenError then some (a, d)
  else
    (a.getFormatter.format strftime event).map fun text =>
      let room := behindEndl strftime a.getFormatter event a.stream.held
      let r := a.stream.write d text room io
      ({ a with stream := r.1 }, r.2)

end FileLogAppender

/-- `LogAppender`: a file appender, or a `StdoutLogAppender` with what it formats with. -/
inductive LogAppender
  | file (a : FileLogAppender)
  | stdout (formatter : LogFormatter)

/-! ## The logger -/

/-- A logger, with the log files by name and what `std::cout` has been given. -/
structure System where
  level : LogLevel
  appenders : List LogAppender
  files : Str → Files
  terminal : Str

/-- The loop of `Logger::log`. -/
def logAll (strftime : Str → Int → Str) (event : LogEvent) (io : Str → Io) :
    List LogAppender → (Str → Files) → Str → Option (List LogAppender × (Str → Files) × Str)
  | [], files, terminal => some ([], files, terminal)
  | .file a :: rest, files, terminal =>
      (a.log strftime (files a.filename) event (io a.filename)).bind fun r =>
        (logAll strftime event io rest (Function.update files a.filename r.2) terminal).map
          fun s => (.file r.1 :: s.1, s.2)
  | .stdout fm :: rest, files, terminal =>
      (fm.format strftime event).bind fun text =>
        (logAll strftime event io rest files (terminal ++ text)).map
          fun s => (.stdout fm :: s.1, s.2)

/-- The file appender of a name. -/
def appenderOf (name : Str) : List LogAppender → Option FileLogAppender
  | [] => none
  | .file a :: rest => if a.filename = name then some a else appenderOf name rest
  | .stdout _ :: rest => appenderOf name rest

/-- `delAppender` with the file appender of a name. -/
def delFile (name : Str) : List LogAppender → List LogAppender
  | [] => []
  | .file a :: rest => if a.filename = name then rest else .file a :: delFile name rest
  | .stdout fm :: rest => .stdout fm :: delFile name rest

/-- The files of a name when the appender of that name is destroyed. -/
def closeFile (l : List LogAppender) (name : Str) (d : Files) (fails : Option Nat) : Files :=
  match appenderOf name l with
  | none => d
  | some a => (a.stream.close d fails).2

inductive Act
  | log (event : LogEvent) (io : Str → Io)
  /-- a log file is moved away -/
  | unlink (name : Str)
  | setLevel (level : LogLevel)
  /-- `addAppender` with a new `FileLogAppender` -/
  | addFile (name : Str) (defaultFormatter : LogFormatter) (opens : Bool)
  | addStdout (formatter : LogFormatter)
  /-- `delAppender` with the last pointer to the appender -/
  | delFile (name : Str) (fails : Option Nat)
  | clearAppenders (fails : Str → Option Nat)

def System.step (strftime : Str → Int → Str) (s : System) : Act → Option System
  | .log event io =>
      if Output.level event.level ≤ Output.level s.level then
        (logAll strftime event io s.appenders s.files s.terminal).map fun r =>
          { s with appenders := r.1, files := r.2.1, terminal := r.2.2 }
      else some s
  | .unlink name =>
      some { s with files := Function.update s.files name (s.files name).unlink }
  | .setLevel level => some { s with level }
  | .addFile name fm opens =>
      -- one appender for each file
      when (appenderOf name s.appenders = none)
        (let r := FileLogAppender.new name fm (s.files name) opens
         { s with
           appenders := s.appenders ++ [.file r.1]
           files := Function.update s.files name r.2 })
  | .addStdout fm => some { s with appenders := s.appenders ++ [.stdout fm] }
  | .delFile name fails =>
      some { s with
        appenders := Output.delFile name s.appenders
        files := Function.update s.files name (closeFile s.appenders name (s.files name) fails) }
  | .clearAppenders fails =>
      some { s with
        appenders := []
        files := fun name => closeFile s.appenders name (s.files name) (fails name) }

/-- `Logger::Logger`, whatever files there are. -/
def outputSys (strftime : Str → Int → Str) : TSys System Act where
  init := fun s => s.level = .INFO ∧ s.appenders = [] ∧
    ∀ name k, (s.files name).named = some k → k < (s.files name).made
  step := System.step strftime

/-! ## One appender among the others -/

/-- The names of the file appenders. -/
def fileNames : List LogAppender → List Str
  | [] => []
  | .file a :: rest => a.filename :: fileNames rest
  | .stdout _ :: rest => fileNames rest

theorem appenderOf_eq_none {name : Str} {l : List LogAppender} :
    appenderOf name l = none ↔ name ∉ fileNames l := by
  induction l with
  | nil => simp [appenderOf, fileNames]
  | cons x rest ih =>
      cases x with
      | file a =>
          unfold appenderOf fileNames
          rw [List.mem_cons, not_or]
          split
          · rename_i heq
            simp [heq]
          · rename_i hne
            rw [ih]
            exact (and_iff_right fun h => hne h.symm).symm
      | stdout fm => exact ih

theorem appenderOf_append {name : Str} {l r : List LogAppender} :
    appenderOf name (l ++ r) = (appenderOf name l).or (appenderOf name r) := by
  induction l with
  | nil => rfl
  | cons x rest ih =>
      cases x with
      | file a =>
          show (if a.filename = name then some a else appenderOf name (rest ++ r)) =
            (if a.filename = name then some a else appenderOf name rest).or (appenderOf name r)
          split
          · rfl
          · exact ih
      | stdout fm => exact ih

theorem appenderOf_delFile {name other : Str} (hne : name ≠ other) (l : List LogAppender) :
    appenderOf name (delFile other l) = appenderOf name l := by
  induction l with
  | nil => rfl
  | cons x rest ih =>
      cases x with
      | file a =>
          unfold delFile
          split
          · rename_i hother
            rw [appenderOf, if_neg (by rw [hother]; exact Ne.symm hne)]
          · rw [appenderOf, appenderOf, ih]
      | stdout fm => exact ih

theorem fileNames_delFile (name : Str) (l : List LogAppender) :
    fileNames (delFile name l) = (fileNames l).erase name := by
  induction l with
  | nil => rfl
  | cons x rest ih =>
      cases x with
      | file a =>
          unfold delFile
          split
          · rename_i heq
            rw [fileNames, heq, List.erase_cons_head]
          · rename_i hne
            rw [fileNames, fileNames, ih, List.erase_cons_tail (by simpa using hne)]
      | stdout fm => exact ih

variable {strftime : Str → Int → Str} {a a' : FileLogAppender} {d d' : Files} {event : LogEvent}

/-- Nothing but the stream, its error and the time changes in an appender. -/
theorem log_frame {io : Io} (h : a.log strftime d event io = some (a', d')) :
    a'.filename = a.filename ∧ a'.getFormatter = a.getFormatter := by
  have hrefresh : (a.refresh d event io).1.filename = a.filename ∧
      (a.refresh d event io).1.getFormatter = a.getFormatter := by
    unfold FileLogAppender.refresh
    split
    · exact ⟨rfl, rfl⟩
    · exact ⟨rfl, rfl⟩
  unfold FileLogAppender.log at h
  dsimp only at h
  split at h
  · cases h
    exact hrefresh
  · obtain ⟨text, -, heq⟩ := Option.map_eq_some_iff.mp h
    cases heq
    exact hrefresh

/-- The file appender of a name and the files of that name, after an event: as if there were no
other appender. -/
theorem log_appender {io : Str → Io} {l l' : List LogAppender} {files files' : Str → Files}
    {terminal terminal' : Str}
    (h : logAll strftime event io l files terminal = some (l', files', terminal'))
    (hnodup : (fileNames l).Nodup) :
    fileNames l' = fileNames l ∧ ∀ name,
      (appenderOf name l = none → files' name = files name) ∧
      ∀ a, appenderOf name l = some a → ∃ a',
        a.log strftime (files name) event (io name) = some (a', files' name) ∧
          appenderOf name l' = some a' := by
  induction l generalizing l' files terminal with
  | nil =>
      cases h
      exact ⟨rfl, fun name => ⟨fun _ => rfl, nofun⟩⟩
  | cons x rest ih =>
      cases x with
      | file b =>
          unfold logAll at h
          obtain ⟨⟨b', d'⟩, hlog, hrest⟩ := Option.bind_eq_some_iff.mp h
          obtain ⟨⟨l₁, files₁, terminal₁⟩, hall, heq⟩ := Option.map_eq_some_iff.mp hrest
          cases heq
          obtain ⟨hb, hnodup⟩ := List.nodup_cons.mp hnodup
          obtain ⟨hnames, hothers⟩ := ih hall hnodup
          have hname := (log_frame hlog).1
          -- the rest of the appenders leaves the files of this name alone
          have hkept : files' b.filename = d' := by
            rw [(hothers b.filename).1 (appenderOf_eq_none.mpr hb), Function.update_self]
          refine ⟨by rw [fileNames, fileNames, hnames, hname], fun name => ?_⟩
          by_cases hown : b.filename = name
          · subst hown
            refine ⟨fun hnone => ?_, fun a ha => ⟨b', ?_, ?_⟩⟩
            · rw [appenderOf, if_pos rfl] at hnone
              cases hnone
            · rw [appenderOf, if_pos rfl] at ha
              cases ha
              rw [hkept]
              exact hlog
            · rw [appenderOf, if_pos hname]
          · have hown' : ¬b'.filename = name := hname ▸ hown
            obtain ⟨hnone, hsome⟩ := hothers name
            rw [Function.update_of_ne (Ne.symm hown)] at hnone hsome
            rw [appenderOf, appenderOf, if_neg hown, if_neg hown']
            exact ⟨hnone, hsome⟩
      | stdout fm =>
          unfold logAll at h
          obtain ⟨text, -, hrest⟩ := Option.bind_eq_some_iff.mp h
          obtain ⟨⟨l₁, files₁, terminal₁⟩, hall, heq⟩ := Option.map_eq_some_iff.mp hrest
          cases heq
          obtain ⟨hnames, hothers⟩ := ih hall hnodup
          exact ⟨hnames, hothers⟩

/-! ## The state of an appender -/

/-- What holds of an appender once it is constructed: a stream in a good state has a file, the flag
for errors is not set for it, and it holds back nothing where each text ends in `std::endl`. -/
structure Sound (a : FileLogAppender) (d : Files) : Prop where
  named : ∀ k, d.named = some k → k < d.made
  file : ∀ k, a.stream.file = some k → k < d.made
  good : a.stream.good = true → a.stream.file.isSome = true ∧ a.reopenError = false
  flushed : EndsLine a.getFormatter → a.stream.good = true → a.stream.held = []

theorem Files.openAppend_named (d : Files) : d.openAppend.1.named = some d.openAppend.2 := by
  unfold openAppend
  split
  · assumption
  · rfl

theorem Files.openAppend_made (hnamed : ∀ k, d.named = some k → k < d.made) :
    d.made ≤ d.openAppend.1.made ∧ d.openAppend.2 < d.openAppend.1.made := by
  unfold openAppend
  split
  · rename_i k hk
    exact ⟨le_rfl, hnamed k hk⟩
  · exact ⟨Nat.le_succ _, Nat.lt_succ_self _⟩

theorem FileStream.openFile_cases (st : FileStream) (d : Files) (opens : Bool) :
    st.openFile d opens = ({ st with good := false }, d) ∨
      st.file = none ∧ opens = true ∧
        st.openFile d opens = (⟨some d.openAppend.2, true, []⟩, d.openAppend.1) := by
  unfold openFile
  cases hfile : st.file with
  | some k => exact .inl rfl
  | none =>
      cases opens with
      | true => exact .inr ⟨rfl, rfl, rfl⟩
      | false => exact .inl rfl

/-- A `close` makes no file and takes no name away. -/
theorem FileStream.close_spec (st : FileStream) (d : Files) (fails : Option Nat) :
    (st.close d fails).1.file = none ∧ (st.close d fails).2.named = d.named ∧
      (st.close d fails).2.made = d.made := by
  unfold close
  split
  · rename_i hnone
    exact ⟨hnone, rfl, rfl⟩
  · exact ⟨rfl, rfl, rfl⟩
  · exact ⟨rfl, rfl, rfl⟩

theorem closeFile_spec (l : List LogAppender) (name : Str) (d : Files) (fails : Option Nat) :
    (closeFile l name d fails).named = d.named ∧ (closeFile l name d fails).made = d.made := by
  unfold closeFile
  split
  · exact ⟨rfl, rfl⟩
  · rename_i a _
    exact (a.stream.close_spec d fails).2

/-- A write that does not fail: some of the text comes out, and the rest is held back. -/
theorem FileStream.write_well (st : FileStream) {k : Nat} {io : Io} (hfile : st.file = some k)
    (hgood : st.good = true) (hfails : io.fails = none) (d : Files) (text : Str) (room : Nat) :
    ∃ out held, st.held ++ text = out ++ held ∧ held.length ≤ room ∧
      st.write d text room io = (⟨some k, true, held⟩, d.append k out) := by
  refine ⟨_, _, (List.take_append_drop
    ((st.held ++ text).length - min io.keeps room) _).symm, ?_, ?_⟩
  · rw [List.length_drop]
    omega
  · unfold write
    rw [hfile, hgood, hfails]

theorem FileStream.write_fails {st : FileStream} {k n : Nat} {rest : Str} {io : Io}
    (hfile : st.file = some k) (hgood : st.good = true) (hfails : io.fails = some (n, rest))
    (d : Files) (text : Str) (room : Nat) :
    st.write d text room io = (⟨some k, false, rest⟩, d.append k ((st.held ++ text).take n)) := by
  unfold write
  rw [hfile, hgood, hfails]

theorem FileStream.write_bad {st : FileStream} (hgood : st.good = false) (d : Files) (text : Str)
    (room : Nat) (io : Io) : st.write d text room io = (st, d) := by
  unfold write
  rw [hgood]
  cases st.file with
  | none => rfl
  | some k => rfl

theorem sound_reopen (hnamed : ∀ k, d.named = some k → k < d.made)
    (hfile : ∀ k, a.stream.file = some k → k < d.made) (opens : Bool) (closes : Option Nat) :
    Sound (a.reopen d opens closes).1 (a.reopen d opens closes).2 := by
  have hclosed : ∀ r : FileStream × Files,
      r = (if a.stream.good then a.stream.close d closes else (a.stream, d)) →
      (∀ k, r.2.named = some k → k < r.2.made) ∧ ∀ k, r.1.file = some k → k < r.2.made := by
    rintro r rfl
    split
    · obtain ⟨hnone, hname, hmade⟩ := a.stream.close_spec d closes
      rw [hnone, hname, hmade]
      exact ⟨hnamed, fun k hk => by cases hk⟩
    · exact ⟨hnamed, hfile⟩
  unfold FileLogAppender.reopen
  dsimp only
  generalize (if a.stream.good then a.stream.close d closes else (a.stream, d)) = r at hclosed ⊢
  obtain ⟨hnamed, hfile⟩ := hclosed r rfl
  rcases r.1.openFile_cases r.2 opens with heq | ⟨-, -, heq⟩
  · -- the stream is in a bad state, with the file it had or without one
    rw [heq]
    exact ⟨hnamed, hfile, nofun, nofun⟩
  · obtain ⟨-, hlt⟩ := Files.openAppend_made hnamed
    rw [heq]
    refine ⟨fun k hk => ?_, fun k hk => ?_, fun _ => ⟨rfl, rfl⟩, fun _ _ => rfl⟩
    · rw [r.2.openAppend_named] at hk
      cases hk
      exact hlt
    · cases hk
      exact hlt

/-- After a text that ends in `std::endl` nothing is held back. -/
theorem behindEndl_eq_zero {fm : LogFormatter} (h : EndsLine fm) (held : Str) :
    behindEndl strftime fm event held = 0 := by
  have hmem : FormatItem.NewLine ∈ fm.items := List.mem_of_getLast? h
  have hlast : fm.items.reverse.head? = some .NewLine := by
    rw [List.head?_reverse]
    exact h
  unfold behindEndl
  dsimp only
  rw [if_pos hmem]
  cases hitems : fm.items.reverse with
  | nil => rfl
  | cons item rest =>
      rw [hitems] at hlast
      obtain rfl : item = .NewLine := Option.some.inj hlast
      -- the last item is the first of the reversed list
      rw [List.takeWhile_cons, if_neg (by decide)]
      rfl

theorem Sound.refresh (h : Sound a d) (event : LogEvent) (io : Io) :
    Sound (a.refresh d event io).1 (a.refresh d event io).2 := by
  unfold FileLogAppender.refresh
  split
  · have hreopen := sound_reopen (a := a) h.named h.file io.opens io.closes
    exact ⟨hreopen.named, hreopen.file, hreopen.good, hreopen.flushed⟩
  · exact h

theorem Sound.log (h : Sound a d) {io : Io} (hlog : a.log strftime d event io = some (a', d')) :
    Sound a' d' := by
  have hrefresh := h.refresh event io
  unfold FileLogAppender.log at hlog
  dsimp only at hlog
  generalize a.refresh d event io = r at hrefresh hlog
  split at hlog
  · cases hlog
    exact hrefresh
  · rename_i herror
    obtain ⟨text, -, heq⟩ := Option.map_eq_some_iff.mp hlog
    cases heq
    cases hgood : r.1.stream.good with
    | false =>
        rw [FileStream.write_bad hgood]
        exact ⟨hrefresh.named, hrefresh.file, hrefresh.good, hrefresh.flushed⟩
    | true =>
        obtain ⟨hfile, -⟩ := hrefresh.good hgood
        obtain ⟨k, hfile⟩ := Option.isSome_iff_exists.mp hfile
        have hk := hrefresh.file k hfile
        cases hfails : io.fails with
        | none =>
            -- a text that ends in `std::endl` leaves no room in the buffer
            obtain ⟨out, held, -, hroom, hwrite⟩ := r.1.stream.write_well hfile hgood hfails r.2
              text (behindEndl strftime r.1.getFormatter event r.1.stream.held)
            rw [hwrite]
            refine ⟨hrefresh.named, fun j hj => ?_, fun _ => ⟨rfl, by simpa using herror⟩,
              fun hends _ => ?_⟩
            · cases hj
              exact hk
            · have hends : EndsLine r.1.getFormatter := hends
              rw [behindEndl_eq_zero hends] at hroom
              exact List.eq_nil_of_length_eq_zero (Nat.le_zero.mp hroom)
        | some failure =>
            rw [FileStream.write_fails hfile hgood hfails]
            refine ⟨hrefresh.named, fun j hj => ?_, nofun, nofun⟩
            cases hj
            exact hk

/-- Every file appender is sound, and each name has one. -/
structure Inv (s : System) : Prop where
  once : (fileNames s.appenders).Nodup
  named : ∀ name k, (s.files name).named = some k → k < (s.files name).made
  sound : ∀ name a, appenderOf name s.appenders = some a → Sound a (s.files name)

theorem Sound.unlink (h : Sound a d) : Sound a d.unlink := ⟨nofun, h.file, h.good, h.flushed⟩

theorem Inv.log {s : System} (h : Inv s) {io : Str → Io} {l : List LogAppender}
    {files : Str → Files} {terminal : Str}
    (hlog : logAll strftime event io s.appenders s.files s.terminal = some (l, files, terminal)) :
    Inv { s with appenders := l, files, terminal } := by
  obtain ⟨hnames, hothers⟩ := log_appender hlog h.once
  have hsound : ∀ name a, appenderOf name s.appenders = some a → ∃ a',
      appenderOf name l = some a' ∧ Sound a' (files name) := by
    intro name a ha
    obtain ⟨a', hlog', ha'⟩ := (hothers name).2 a ha
    exact ⟨a', ha', (h.sound name a ha).log hlog'⟩
  refine ⟨by rw [hnames]; exact h.once, fun name k hk => ?_, fun name a ha => ?_⟩
  · cases hown : appenderOf name s.appenders with
    | none =>
        dsimp only at hk ⊢
        rw [(hothers name).1 hown] at hk ⊢
        exact h.named name k hk
    | some b =>
        obtain ⟨b', -, hb'⟩ := hsound name b hown
        exact hb'.named k hk
  · cases hown : appenderOf name s.appenders with
    | none =>
        have hnot : name ∉ fileNames l := hnames ▸ appenderOf_eq_none.mp hown
        rw [appenderOf_eq_none.mpr hnot] at ha
        cases ha
    | some b =>
        obtain ⟨b', hb', hsound'⟩ := hsound name b hown
        rw [hb'] at ha
        cases ha
        exact hsound'

theorem fileNames_append (l r : List LogAppender) :
    fileNames (l ++ r) = fileNames l ++ fileNames r := by
  induction l with
  | nil => rfl
  | cons x rest ih =>
      cases x with
      | file a =>
          show a.filename :: fileNames (rest ++ r) = a.filename :: fileNames rest ++ fileNames r
          rw [ih]
          rfl
      | stdout fm => exact ih

theorem Inv.addFile {s : System} (h : Inv s) {name : Str}
    (hnew : appenderOf name s.appenders = none) (fm : LogFormatter) (opens : Bool) :
    Inv { s with
      appenders := s.appenders ++ [.file (FileLogAppender.new name fm (s.files name) opens).1]
      files := Function.update s.files name
        (FileLogAppender.new name fm (s.files name) opens).2 } := by
  have hsound : Sound (FileLogAppender.new name fm (s.files name) opens).1
      (FileLogAppender.new name fm (s.files name) opens).2 :=
    sound_reopen (h.named name) (fun k hk => by cases hk) opens none
  have hname : (FileLogAppender.new name fm (s.files name) opens).1.filename = name := rfl
  generalize FileLogAppender.new name fm (s.files name) opens = r at hsound hname
  refine ⟨?_, fun other k hk => ?_, fun other a ha => ?_⟩
  · show (fileNames (s.appenders ++ [.file r.1])).Nodup
    rw [fileNames_append]
    show (fileNames s.appenders ++ [r.1.filename]).Nodup
    rw [hname, List.nodup_append_comm, List.singleton_append, List.nodup_cons]
    exact ⟨appenderOf_eq_none.mp hnew, h.once⟩
  · dsimp only at hk ⊢
    by_cases hown : other = name
    · subst hown
      rw [Function.update_self] at hk ⊢
      exact hsound.named k hk
    · rw [Function.update_of_ne hown] at hk ⊢
      exact h.named other k hk
  · dsimp only at ha ⊢
    rw [appenderOf_append] at ha
    by_cases hown : other = name
    · subst hown
      rw [hnew, Option.none_or, appenderOf, if_pos hname] at ha
      cases ha
      rw [Function.update_self]
      exact hsound
    · have hother : appenderOf other [.file r.1] = none := by
        rw [appenderOf, if_neg (by rw [hname]; exact Ne.symm hown), appenderOf]
      rw [hother, Option.or_none] at ha
      rw [Function.update_of_ne hown]
      exact h.sound other a ha

theorem inv_inductive : (outputSys strftime).Inductive (fun _ _ => True) Inv where
  init := by
    rintro s ⟨-, happenders, hnamed⟩
    refine ⟨?_, hnamed, ?_⟩
    · rw [happenders]
      exact List.nodup_nil
    · rw [happenders]
      intro name a ha
      cases ha
  step := by
    intro s act s' h _ hs
    have hs : System.step strftime s act = some s' := hs
    cases act with
    | log event io =>
        simp only [System.step] at hs
        split at hs
        · obtain ⟨⟨l, files, terminal⟩, hlog, heq⟩ := Option.map_eq_some_iff.mp hs
          cases heq
          exact h.log hlog
        · cases hs
          exact h
    | unlink name =>
        cases hs
        refine ⟨h.once, fun other k hk => ?_, fun other a ha => ?_⟩
        · dsimp only at hk ⊢
          by_cases hown : other = name
          · subst hown
            rw [Function.update_self] at hk
            cases hk
          · rw [Function.update_of_ne hown] at hk ⊢
            exact h.named other k hk
        · dsimp only
          by_cases hown : other = name
          · subst hown
            rw [Function.update_self]
            exact (h.sound other a ha).unlink
          · rw [Function.update_of_ne hown]
            exact h.sound other a ha
    | setLevel level =>
        cases hs
        exact ⟨h.once, h.named, h.sound⟩
    | addFile name fm opens =>
        obtain ⟨hnew, rfl⟩ := when_eq_some.mp hs
        exact h.addFile hnew fm opens
    | addStdout fm =>
        cases hs
        have hnames : fileNames (s.appenders ++ [.stdout fm]) = fileNames s.appenders := by
          rw [fileNames_append]
          exact List.append_nil _
        refine ⟨by dsimp only; rw [hnames]; exact h.once, h.named, fun name a ha => ?_⟩
        dsimp only at ha
        rw [appenderOf_append, appenderOf, appenderOf, Option.or_none] at ha
        exact h.sound name a ha
    | delFile name fails =>
        cases hs
        have hnodup : (fileNames (delFile name s.appenders)).Nodup := by
          rw [fileNames_delFile]
          exact h.once.erase name
        obtain ⟨hname, hmade⟩ := closeFile_spec s.appenders name (s.files name) fails
        refine ⟨hnodup, fun other k hk => ?_, fun other a ha => ?_⟩
        · dsimp only at hk ⊢
          by_cases hown : other = name
          · subst hown
            rw [Function.update_self] at hk ⊢
            rw [hname] at hk
            rw [hmade]
            exact h.named other k hk
          · rw [Function.update_of_ne hown] at hk ⊢
            exact h.named other k hk
        · dsimp only at ha ⊢
          by_cases hown : other = name
          · have hgone : other ∉ fileNames (delFile name s.appenders) := by
              rw [hown, fileNames_delFile]
              exact h.once.not_mem_erase
            rw [appenderOf_eq_none.mpr hgone] at ha
            cases ha
          · rw [appenderOf_delFile hown] at ha
            rw [Function.update_of_ne hown]
            exact h.sound other a ha
    | clearAppenders fails =>
        cases hs
        refine ⟨List.nodup_nil, fun name k hk => ?_, fun name a ha => ?_⟩
        · obtain ⟨hname, hmade⟩ := closeFile_spec s.appenders name (s.files name) (fails name)
          dsimp only at hk ⊢
          rw [hname] at hk
          rw [hmade]
          exact h.named name k hk
        · cases ha

/-! ## One appender over a run -/

/-- What gets from one step to the appenders, with how the calls for a file go. -/
def Act.accepted (name : Str) (l : LogLevel) : Act → List (LogEvent × Io)
  | .log event io =>
      if Output.level event.level ≤ Output.level l then [(event, io name)] else []
  | _ => []

def Act.levelAfter (l : LogLevel) : Act → LogLevel
  | .setLevel l' => l'
  | _ => l

/-- The events of a run that get to the appenders. -/
def accepted (name : Str) : LogLevel → List Act → List (LogEvent × Io)
  | _, [] => []
  | l, act :: rest => act.accepted name l ++ accepted name (act.levelAfter l) rest

/-- `FileLogAppender::log` for one event after another. -/
def logEach (strftime : Str → Int → Str) :
    FileLogAppender → Files → List (LogEvent × Io) → Option (FileLogAppender × Files)
  | a, d, [] => some (a, d)
  | a, d, (event, io) :: rest =>
      (a.log strftime d event io).bind fun r => logEach strftime r.1 r.2 rest

/-- A step that neither removes the appender of a name nor moves its file away. -/
def Act.Spares (name : Str) : Act → Prop
  | .unlink other => other ≠ name
  | .delFile other _ => other ≠ name
  | .clearAppenders _ => False
  | _ => True

/-- One step, for one appender: nothing, or one event more. -/
theorem step_appender {s s' : System} {act : Act} {name : Str} (hinv : Inv s)
    (ha : appenderOf name s.appenders = some a) (hspares : act.Spares name)
    (hs : System.step strftime s act = some s') : ∃ a',
      appenderOf name s'.appenders = some a' ∧ s'.level = act.levelAfter s.level ∧
      logEach strftime a (s.files name) (act.accepted name s.level) =
        some (a', s'.files name) := by
  cases act with
  | log event io =>
      simp only [System.step] at hs
      unfold Act.accepted
      split at hs
      · rename_i hlevel
        obtain ⟨⟨l, files, terminal⟩, hlog, heq⟩ := Option.map_eq_some_iff.mp hs
        cases heq
        obtain ⟨-, hothers⟩ := log_appender hlog hinv.once
        obtain ⟨a', hone, ha'⟩ := (hothers name).2 a ha
        refine ⟨a', ha', rfl, ?_⟩
        dsimp only
        rw [if_pos hlevel, logEach, hone]
        rfl
      · rename_i hlevel
        cases hs
        refine ⟨a, ha, rfl, ?_⟩
        dsimp only
        rw [if_neg hlevel]
        rfl
  | unlink other =>
      cases hs
      have hname : name ≠ other := fun h => hspares h.symm
      refine ⟨a, ha, rfl, ?_⟩
      dsimp only
      rw [Function.update_of_ne hname]
      rfl
  | setLevel level =>
      cases hs
      exact ⟨a, ha, rfl, rfl⟩
  | addFile other fm opens =>
      obtain ⟨hnew, rfl⟩ := when_eq_some.mp hs
      have hname : name ≠ other := by
        rintro rfl
        rw [hnew] at ha
        cases ha
      refine ⟨a, ?_, rfl, ?_⟩
      · dsimp only
        rw [appenderOf_append, ha, Option.some_or]
      · dsimp only
        rw [Function.update_of_ne hname]
        rfl
  | addStdout fm =>
      cases hs
      refine ⟨a, ?_, rfl, rfl⟩
      dsimp only
      rw [appenderOf_append, ha, Option.some_or]
  | delFile other fails =>
      cases hs
      have hname : name ≠ other := fun h => hspares h.symm
      refine ⟨a, ?_, rfl, ?_⟩
      · dsimp only
        rw [appenderOf_delFile hname]
        exact ha
      · dsimp only
        rw [Function.update_of_ne hname]
        rfl
  | clearAppenders fails => exact hspares.elim

theorem logEach_append (events more : List (LogEvent × Io)) :
    logEach strftime a d (events ++ more) =
      (logEach strftime a d events).bind fun r => logEach strftime r.1 r.2 more := by
  induction events generalizing a d with
  | nil => rfl
  | cons event rest ih =>
      show ((a.log strftime d event.1 event.2).bind fun r =>
          logEach strftime r.1 r.2 (rest ++ more)) =
        ((a.log strftime d event.1 event.2).bind fun r => logEach strftime r.1 r.2 rest).bind _
      rw [Option.bind_assoc]
      congr 1
      funext r
      exact ih

/-- A whole run, for one appender: the accepted events one after another, whatever happens to the
other appenders, to their files and to the level. -/
theorem run_appender {s t : System} {acts : List Act} {name : Str} (hinv : Inv s)
    (ha : appenderOf name s.appenders = some a) (hspares : ∀ act ∈ acts, act.Spares name)
    (hrun : (outputSys strftime).exec (fun _ _ => true) s acts = some t) : ∃ a',
      appenderOf name t.appenders = some a' ∧
      logEach strftime a (s.files name) (accepted name s.level acts) = some (a', t.files name) := by
  induction acts generalizing s a with
  | nil =>
      cases hrun
      exact ⟨a, ha, rfl⟩
  | cons act rest ih =>
      rw [TSys.exec, if_pos rfl] at hrun
      obtain ⟨s', hs, hrest⟩ := Option.bind_eq_some_iff.mp hrun
      obtain ⟨hnow, hlater⟩ := List.forall_mem_cons.mp hspares
      obtain ⟨a₁, ha₁, hlevel, hone⟩ := step_appender hinv ha hnow hs
      obtain ⟨a', ha', heach⟩ :=
        ih (inv_inductive.step s act s' hinv trivial hs) ha₁ hlater hrest
      refine ⟨a', ha', ?_⟩
      rw [accepted, ← hlevel, logEach_append, hone]
      exact heach

/-! ## Rotation -/

/-- The texts of events, one after another. -/
def texts (strftime : Str → Int → Str) (fm : LogFormatter) : List LogEvent → Option Str
  | [] => some []
  | event :: rest =>
      (fm.format strftime event).bind fun text => (texts strftime fm rest).map (text ++ ·)

/-- No call for the event fails. -/
def Io.Well (io : Io) : Prop := io.opens = true ∧ io.closes = none ∧ io.fails = none

theorem Files.append_append (d : Files) (k : Nat) (text more : Str) :
    (d.append k text).append k more = d.append k (text ++ more) := by
  unfold append
  dsimp only
  rw [Function.update_self, Function.update_idem, List.append_assoc]

theorem Files.append_nil (d : Files) (k : Nat) : d.append k [] = d := by
  unfold append
  rw [List.append_nil, Function.update_eq_self]

theorem Files.content_append (d : Files) (k : Nat) (text : Str) :
    (d.append k text).content k = d.content k ++ text := Function.update_self ..

theorem Files.content_append_of_ne {j k : Nat} {text : Str} (h : j ≠ k) :
    (d.append k text).content j = d.content j := Function.update_of_ne h ..

theorem Files.openAppend_new (hnamed : d.named = none) :
    d.openAppend.1.named = some d.made ∧ d.openAppend.1.content d.made = [] := by
  unfold openAppend
  rw [hnamed]
  exact ⟨rfl, Function.update_self ..⟩

theorem Files.content_openAppend {k : Nat} (hnamed : d.named = none) (h : k ≠ d.made) :
    d.openAppend.1.content k = d.content k := by
  unfold openAppend
  rw [hnamed]
  exact Function.update_of_ne h ..

/-- The appender writes to the file `g`. -/
structure Writing (a : FileLogAppender) (g : Nat) : Prop where
  file : a.stream.file = some g
  good : a.stream.good = true
  error : a.reopenError = false

/-- An event before the time to open the file again. -/
theorem log_early {f : Nat} {io : Io} (hw : Writing a f) (hearly : a.due event = false)
    (hio : io.Well) (h : a.log strftime d event io = some (a', d')) : ∃ text out held,
      a.getFormatter.format strftime event = some text ∧
      a.stream.held ++ text = out ++ held ∧
      a' = { a with stream := ⟨some f, true, held⟩ } ∧ d' = d.append f out := by
  have hrefresh : a.refresh d event io = (a, d) := by
    unfold FileLogAppender.refresh
    rw [hearly]
    rfl
  unfold FileLogAppender.log at h
  rw [hrefresh] at h
  dsimp only at h
  rw [if_neg (by rw [hw.error]; exact Bool.false_ne_true)] at h
  obtain ⟨text, htext, heq⟩ := Option.map_eq_some_iff.mp h
  obtain ⟨out, held, hsplit, -, hwrite⟩ := a.stream.write_well hw.file hw.good hio.2.2 d text
    (behindEndl strftime a.getFormatter event a.stream.held)
  rw [hwrite] at heq
  cases heq
  exact ⟨text, out, held, htext, hsplit, rfl, rfl⟩

/-- An event that has the file opened again. -/
theorem log_due {f : Nat} {io : Io} (hw : Writing a f) (hdue : a.due event = true)
    (hio : io.Well) (h : a.log strftime d event io = some (a', d')) : ∃ text out held,
      a.getFormatter.format strftime event = some text ∧ text = out ++ held ∧
      let opened := (d.append f a.stream.held).openAppend
      a' = { a with
        stream := ⟨some opened.2, true, held⟩
        lastTime := FileLogAppender.timeOf event } ∧ d' = opened.1.append opened.2 out := by
  obtain ⟨hopens, hcloses, hfails⟩ := hio
  have hrefresh : a.refresh d event io =
      ({ a with
        stream := ⟨some (d.append f a.stream.held).openAppend.2, true, []⟩
        lastTime := FileLogAppender.timeOf event },
       (d.append f a.stream.held).openAppend.1) := by
    unfold FileLogAppender.refresh FileLogAppender.reopen FileStream.close
    rw [hdue, hw.good, hw.file, hopens, hcloses]
    obtain ⟨-, -, herror⟩ := hw
    cases a
    cases herror
    rfl
  unfold FileLogAppender.log at h
  rw [hrefresh] at h
  dsimp only at h
  rw [if_neg (by rw [hw.error]; exact Bool.false_ne_true)] at h
  obtain ⟨text, htext, heq⟩ := Option.map_eq_some_iff.mp h
  generalize (d.append f a.stream.held).openAppend = opened at heq ⊢
  generalize behindEndl strftime _ event [] = room at heq
  obtain ⟨out, held, hsplit, -, hwrite⟩ :=
    FileStream.write_well ⟨some opened.2, true, []⟩ rfl rfl hfails opened.1 text room
  rw [hwrite] at heq
  cases heq
  exact ⟨text, out, held, htext, hsplit, rfl, rfl⟩

theorem texts_cons {fm : LogFormatter} {events : List LogEvent} {text more : Str}
    (htext : fm.format strftime event = some text) (hmore : texts strftime fm events = some more) :
    texts strftime fm (event :: events) = some (text ++ more) := by
  rw [texts, htext, Option.bind_some, hmore, Option.map_some]

theorem logEach_cons {io : Io} {rest : List (LogEvent × Io)}
    (h : logEach strftime a d ((event, io) :: rest) = some (a', d')) : ∃ a₁ d₁,
      a.log strftime d event io = some (a₁, d₁) ∧ logEach strftime a₁ d₁ rest = some (a', d') := by
  obtain ⟨⟨a₁, d₁⟩, hone, hrest⟩ := Option.bind_eq_some_iff.mp h
  exact ⟨a₁, d₁, hone, hrest⟩

theorem logEach_getFormatter {events : List (LogEvent × Io)}
    (h : logEach strftime a d events = some (a', d')) : a'.getFormatter = a.getFormatter := by
  induction events generalizing a d with
  | nil =>
      cases h
      rfl
  | cons p rest ih =>
      obtain ⟨a₁, d₁, hone, hrest⟩ := logEach_cons h
      exact (ih hrest).trans (log_frame hone).2

/-- While the name stays with the file that is open, every event goes there. -/
theorem settled_run {g : Nat} {events : List (LogEvent × Io)} (hw : Writing a g)
    (hnamed : d.named = some g) (hio : ∀ p ∈ events, p.2.Well)
    (h : logEach strftime a d events = some (a', d')) : ∃ text out,
      texts strftime a.getFormatter (events.map Prod.fst) = some text ∧
      a.stream.held ++ text = out ++ a'.stream.held ∧ d' = d.append g out ∧
      a'.stream.good = true := by
  induction events generalizing a d with
  | nil =>
      cases h
      exact ⟨[], [], rfl, List.append_nil _, (Files.append_nil ..).symm, hw.good⟩
  | cons p rest ih =>
      obtain ⟨event, io⟩ := p
      obtain ⟨hnow, hlater⟩ := List.forall_mem_cons.mp hio
      obtain ⟨a₁, d₁, hone, hrest⟩ := logEach_cons h
      cases hdue : a.due event with
      | false =>
          obtain ⟨text, out, held, htext, hsplit, rfl, rfl⟩ := log_early hw hdue hnow hone
          obtain ⟨more, out', hmore, hsplit', rfl, hgood⟩ :=
            ih (a := { a with stream := ⟨some g, true, held⟩ }) (d := d.append g out)
              ⟨rfl, rfl, hw.error⟩ hnamed hlater hrest
          refine ⟨text ++ more, out ++ out', texts_cons htext hmore, ?_, Files.append_append ..,
            hgood⟩
          have hsplit' : held ++ more = out' ++ a'.stream.held := hsplit'
          rw [← List.append_assoc, hsplit, List.append_assoc, hsplit', List.append_assoc]
      | true =>
          -- the name leads to the same file
          have hopen : (d.append g a.stream.held).openAppend = (d.append g a.stream.held, g) := by
            unfold Files.openAppend
            rw [show (d.append g a.stream.held).named = some g from hnamed]
          obtain ⟨text, out, held, htext, hsplit, hopened⟩ := log_due hw hdue hnow hone
          rw [hopen] at hopened
          obtain ⟨rfl, rfl⟩ := hopened
          rw [Files.append_append] at hrest
          obtain ⟨more, out', hmore, hsplit', rfl, hgood⟩ :=
            ih (a := { a with
                stream := ⟨some g, true, held⟩
                lastTime := FileLogAppender.timeOf event })
              (d := d.append g (a.stream.held ++ out)) ⟨rfl, rfl, hw.error⟩ hnamed hlater hrest
          refine ⟨text ++ more, a.stream.held ++ out ++ out', texts_cons htext hmore, ?_,
            Files.append_append .., hgood⟩
          have hsplit' : held ++ more = out' ++ a'.stream.held := hsplit'
          rw [hsplit, List.append_assoc, hsplit']
          simp only [List.append_assoc]

/-- The file is gone: the events go to it until one has the name opened again, and from that one
on to a new file. -/
theorem stale_run {f : Nat} {events : List (LogEvent × Io)} (hw : Writing a f)
    (hnamed : d.named = none) (hio : ∀ p ∈ events, p.2.Well)
    (h : logEach strftime a d events = some (a', d')) : ∃ old new out,
      let late := (events.map Prod.fst).dropWhile (!a.due ·)
      a'.stream.good = true ∧
      texts strftime a.getFormatter ((events.map Prod.fst).takeWhile (!a.due ·)) = some old ∧
      texts strftime a.getFormatter late = some new ∧
      (late = [] → a.stream.held ++ old = out ++ a'.stream.held ∧ d' = d.append f out) ∧
      (late ≠ [] → new = out ++ a'.stream.held ∧
        d' = (d.append f (a.stream.held ++ old)).openAppend.1.append d.made out) := by
  induction events generalizing a d with
  | nil =>
      cases h
      exact ⟨[], [], [], hw.good, rfl, rfl,
        fun _ => ⟨List.append_nil _, (Files.append_nil ..).symm⟩, fun hlate => absurd rfl hlate⟩
  | cons p rest ih =>
      obtain ⟨event, io⟩ := p
      obtain ⟨hnow, hlater⟩ := List.forall_mem_cons.mp hio
      obtain ⟨a₁, d₁, hone, hrest⟩ := logEach_cons h
      rw [List.map_cons, List.takeWhile_cons, List.dropWhile_cons]
      cases hdue : a.due event with
      | false =>
          obtain ⟨text, out, held, htext, hsplit, rfl, rfl⟩ := log_early hw hdue hnow hone
          obtain ⟨old, new, out', hgood, hold, hnew, hnone, hsome⟩ :=
            ih (a := { a with stream := ⟨some f, true, held⟩ }) (d := d.append f out)
              ⟨rfl, rfl, hw.error⟩ hnamed hlater hrest
          have hall : a.stream.held ++ (text ++ old) = out ++ (held ++ old) := by
            rw [← List.append_assoc, hsplit, List.append_assoc]
          by_cases hlate : (rest.map Prod.fst).dropWhile (!a.due ·) = []
          · -- all events so far are in `f` or in the buffer
            obtain ⟨hsplit', rfl⟩ := hnone hlate
            have hsplit' : held ++ old = out' ++ a'.stream.held := hsplit'
            refine ⟨text ++ old, new, out ++ out', hgood, texts_cons htext hold, hnew,
              fun _ => ⟨?_, Files.append_append ..⟩, fun hne => absurd hlate hne⟩
            rw [hall, hsplit', List.append_assoc]
          · obtain ⟨hsplit', rfl⟩ := hsome hlate
            refine ⟨text ++ old, new, out', hgood, texts_cons htext hold, hnew,
              fun heq => absurd heq hlate, fun _ => ⟨hsplit', ?_⟩⟩
            show ((d.append f out).append f (held ++ old)).openAppend.1.append d.made out' = _
            rw [hall, Files.append_append]
      | true =>
          -- `close` writes out what was held, and the name leads to no file
          have hopen : (d.append f a.stream.held).openAppend.2 = d.made := by
            unfold Files.openAppend
            rw [show (d.append f a.stream.held).named = none from hnamed]
            rfl
          have hopened := (d.append f a.stream.held).openAppend_named
          obtain ⟨text, out, held, htext, hsplit, rfl, rfl⟩ := log_due hw hdue hnow hone
          rw [hopen] at hrest hopened
          obtain ⟨more, out', hmore, hsplit', rfl, hgood⟩ :=
            settled_run (a := { a with
                stream := ⟨some d.made, true, held⟩
                lastTime := FileLogAppender.timeOf event })
              (d := (d.append f a.stream.held).openAppend.1.append d.made out)
              ⟨rfl, rfl, hw.error⟩ hopened hlater hrest
          refine ⟨[], text ++ more, out ++ out', hgood, rfl, texts_cons htext hmore,
            fun hnil => ?_, fun _ => ⟨?_, ?_⟩⟩
          · cases hnil
          · have hsplit' : held ++ more = out' ++ a'.stream.held := hsplit'
            rw [hsplit, List.append_assoc, hsplit', List.append_assoc]
          · rw [List.append_nil, Files.append_append]

/-- The files after a rotation: some text more in the old one, and a new one. -/
theorem moved_content {f : Nat} (old new : Str) (hf : f < d.made) :
    let d' := (d.unlink.append f old).openAppend.1.append d.unlink.made new
    d'.content f = d.content f ++ old ∧ d'.named = some d.made ∧ d'.content d.made = new ∧
      ∀ k < d.made, k ≠ f → d'.content k = d.content k := by
  have hnone : (d.unlink.append f old).named = none := rfl
  have hmade : d.unlink.made = d.made := rfl
  obtain ⟨hnamed, hempty⟩ := Files.openAppend_new hnone
  rw [hmade]
  refine ⟨?_, hnamed, ?_, fun k hk hne => ?_⟩
  · rw [Files.content_append_of_ne hf.ne, Files.content_openAppend hnone hf.ne,
      Files.content_append]
    rfl
  · rw [Files.content_append]
    exact congrArg (· ++ new) hempty
  · rw [Files.content_append_of_ne hk.ne, Files.content_openAppend hnone hk.ne,
      Files.content_append_of_ne hne]
    rfl

/-- A rotation loses nothing. While an appender has its file `f` open in a good state, the file is
moved away; then any run follows in which no call for the name fails, the file is not moved again
and the appender stays. The accepted events before the first that comes three seconds after the
last opening are at the end of `f`, all others are in one new file, which has the name, up to what
the stream holds back at the end; that is nothing if the pattern ends in `%n`. No other file of the
name has changed. -/
theorem rotation_followed {s t : System} {acts : List Act} {name : Str} {f : Nat}
    (hreach : (outputSys strftime).Reachable s) (ha : appenderOf name s.appenders = some a)
    (hfile : a.stream.file = some f) (hgood : a.stream.good = true)
    (hspares : ∀ act ∈ acts, act.Spares name)
    (hio : ∀ p ∈ accepted name s.level acts, p.2.Well)
    (hrun : (outputSys strftime).exec (fun _ _ => true) s (.unlink name :: acts) = some t) :
    ∃ a' old new,
      let events := (accepted name s.level acts).map Prod.fst
      let early := events.takeWhile (!a.due ·)
      let late := events.dropWhile (!a.due ·)
      appenderOf name t.appenders = some a' ∧
      texts strftime a.getFormatter early = some old ∧
      texts strftime a.getFormatter late = some new ∧
      (late = [] → (t.files name).content f ++ a'.stream.held =
        (s.files name).content f ++ (a.stream.held ++ old)) ∧
      (late ≠ [] → (t.files name).content f = (s.files name).content f ++ (a.stream.held ++ old) ∧
        (t.files name).named = some (s.files name).made ∧
        (t.files name).content (s.files name).made ++ a'.stream.held = new) ∧
      (EndsLine a.getFormatter → a.stream.held = [] ∧ a'.stream.held = []) ∧
      ∀ k < (s.files name).made, k ≠ f → (t.files name).content k = (s.files name).content k := by
  have hinv : Inv s := inv_inductive.invariant hreach
  have hsound := hinv.sound name a ha
  have hw : Writing a f := ⟨hfile, hgood, (hsound.good hgood).2⟩
  have hf : f < (s.files name).made := hsound.file f hfile
  have hreach' : (outputSys strftime).Reachable t :=
    TSys.exec_reaches (fun _ _ _ => trivial) hreach hrun
  rw [TSys.exec, if_pos rfl] at hrun
  obtain ⟨s', hs, hrest⟩ := Option.bind_eq_some_iff.mp hrun
  have hinv' : Inv s' := inv_inductive.step s _ s' hinv trivial hs
  cases hs
  obtain ⟨a', ha', heach⟩ := run_appender (a := a) hinv' ha hspares hrest
  dsimp only at heach
  rw [Function.update_self] at heach
  obtain ⟨old, new, out, hgood', hold, hnew, hearly, hafter⟩ :=
    stale_run hw (show (s.files name).unlink.named = none from rfl) hio heach
  have hflushed : EndsLine a.getFormatter → a.stream.held = [] ∧ a'.stream.held = [] := by
    intro hends
    have hends' : EndsLine a'.getFormatter := by
      rw [logEach_getFormatter heach]
      exact hends
    have hsound' := (inv_inductive.invariant hreach').sound name a' ha'
    exact ⟨hsound.flushed hends hgood, hsound'.flushed hends' hgood'⟩
  refine ⟨a', old, new, ha', hold, hnew, fun hlate => ?_, fun hlate => ?_, hflushed,
    fun k hk hne => ?_⟩
  · obtain ⟨hsplit, hd⟩ := hearly hlate
    rw [hd, Files.content_append, List.append_assoc, ← hsplit]
    rfl
  · obtain ⟨hsplit, hd⟩ := hafter hlate
    obtain ⟨hf', hnamed, hnew', -⟩ := moved_content (a.stream.held ++ old) out hf
    rw [hd]
    refine ⟨hf', hnamed, ?_⟩
    rw [hsplit]
    exact congrArg (· ++ a'.stream.held) hnew'
  · by_cases hlate : ((accepted name s.level acts).map Prod.fst).dropWhile (!a.due ·) = []
    · rw [(hearly hlate).2]
      exact Files.content_append_of_ne hne
    · rw [(hafter hlate).2]
      exact (moved_content (a.stream.held ++ old) out hf).2.2.2 k hk hne

section Witness

def emptyDisk : System := ⟨.INFO, [], fun _ => ⟨fun _ => [], 0, none⟩, []⟩

/-- The pattern `%m%n`. -/
def messages : LogFormatter := ⟨bytes "%m%n", [.Message, .NewLine], false⟩

def eventAt (time : Int) (content : String) : LogEvent :=
  ⟨.INFO, bytes content, [], 0, 0, 0, 0, time, [], []⟩

def logName : Str := bytes "server.log"

/-- Every call succeeds. -/
def logged (time : Int) (content : String) : Act :=
  .log (eventAt time content) fun _ => ⟨true, none, 100, none⟩

/-- A file appender after its first event. -/
def started : System :=
  ((outputSys fun _ _ => []).exec (fun _ _ => true) emptyDisk
    [.addFile logName messages true, logged 100 "one"]).get (by decide +kernel)

def startedAppender : FileLogAppender :=
  ⟨logName, none, messages, ⟨some 0, true, []⟩, 100, false⟩

theorem started_reachable : (outputSys fun _ _ => []).Reachable started := by
  have hinit : (outputSys fun _ _ => []).init emptyDisk := ⟨rfl, rfl, fun _ _ hk => by cases hk⟩
  exact TSys.exec_reaches (fun _ _ _ => trivial) (.init hinit) (Option.some_get _).symm

def afterMove : List Act :=
  [logged 101 "two", .addStdout messages, logged 103 "three", logged 107 "four"]

/-- The file is moved two seconds before the appender opens it again. -/
theorem rotation_followed_moved : ∃ t,
    (outputSys fun _ _ => []).exec (fun _ _ => true) started (.unlink logName :: afterMove) =
      some t ∧
      (t.files logName).content 0 = bytes "one\ntwo\n" ∧
      (t.files logName).content 1 = bytes "three\nfour\n" ∧ (t.files logName).named = some 1 := by
  obtain ⟨t, ht⟩ := Option.isSome_iff_exists.mp
    (show ((outputSys fun _ _ => []).exec (fun _ _ => true) started
      (.unlink logName :: afterMove)).isSome = true by decide +kernel)
  have ha : appenderOf logName started.appenders = some startedAppender := by decide +kernel
  have hspares : ∀ act ∈ afterMove, act.Spares logName := by
    intro act hact
    simp only [afterMove, List.mem_cons, List.not_mem_nil, or_false] at hact
    rcases hact with rfl | rfl | rfl | rfl <;> exact trivial
  have hio : ∀ p ∈ accepted logName started.level afterMove, p.2.Well := by
    intro p hp
    have hp : p ∈ [(eventAt 101 "two", Io.mk true none 100 none),
      (eventAt 103 "three", Io.mk true none 100 none),
      (eventAt 107 "four", Io.mk true none 100 none)] := hp
    simp only [List.mem_cons, List.not_mem_nil, or_false] at hp
    rcases hp with rfl | rfl | rfl <;> exact ⟨rfl, rfl, rfl⟩
  obtain ⟨a', old, new, -, hold, hnew, -, hlate, hflushed, -⟩ :=
    rotation_followed started_reachable ha rfl rfl hspares hio ht
  have hold : some (bytes "two\n") = some old := hold
  have hnew : some (bytes "three\nfour\n") = some new := hnew
  obtain ⟨hf, hnamed, hcontent⟩ := hlate (by decide +kernel)
  obtain ⟨-, hheld⟩ := hflushed (by decide)
  rw [hheld, List.append_nil] at hcontent
  refine ⟨t, ht, ?_, hcontent.trans (Option.some.inj hnew).symm, hnamed⟩
  rw [hf, ← Option.some.inj hold]
  decide +kernel

/-- With the pattern `%m` the second event is still in the buffer. -/
example :
    (((outputSys fun _ _ => []).exec (fun _ _ => true) emptyDisk
      [.addFile logName ⟨bytes "%m", [.Message], false⟩ true, logged 100 "one",
        logged 103 "two"]).map fun s => (s.files logName).content 0) = some (bytes "one") := by
  decide +kernel

end Witness

/-! ## A write that fails -/

/-- A stream in a bad state stays open: `reopen` does not close it, and cannot open it. -/
theorem log_failed {io : Io} (hfile : a.stream.file.isSome = true) (hgood : a.stream.good = false)
    (h : a.log strftime d event io = some (a', d')) : a'.stream = a.stream ∧ d' = d := by
  have hbad : ({ a.stream with good := false } : FileStream) = a.stream := by rw [← hgood]
  have hrefresh : (a.refresh d event io).1.stream = a.stream ∧ (a.refresh d event io).2 = d := by
    unfold FileLogAppender.refresh FileLogAppender.reopen FileStream.openFile
    split
    · rw [hgood, if_neg Bool.false_ne_true]
      dsimp only
      rw [hfile, Bool.true_or, if_pos rfl]
      exact ⟨hbad, rfl⟩
    · exact ⟨rfl, rfl⟩
  unfold FileLogAppender.log at h
  dsimp only at h
  generalize a.refresh d event io = r at hrefresh h
  obtain ⟨hr, hd⟩ := hrefresh
  split at h
  · cases h
    exact ⟨hr, hd⟩
  · obtain ⟨text, -, heq⟩ := Option.map_eq_some_iff.mp h
    rw [hr, hd, FileStream.write_bad hgood] at heq
    cases heq
    exact ⟨rfl, rfl⟩

theorem logEach_failed {events : List (LogEvent × Io)} (hfile : a.stream.file.isSome = true)
    (hgood : a.stream.good = false) (h : logEach strftime a d events = some (a', d')) :
    a'.stream = a.stream ∧ d' = d := by
  induction events generalizing a d with
  | nil =>
      cases h
      exact ⟨rfl, rfl⟩
  | cons p rest ih =>
      obtain ⟨a₁, d₁, hone, hrest⟩ := logEach_cons h
      obtain ⟨hstream, rfl⟩ := log_failed hfile hgood hone
      obtain ⟨hrest, hd⟩ := ih (hstream ▸ hfile) (hstream ▸ hgood) hrest
      exact ⟨hrest.trans hstream, hd⟩

/-- A step that does not remove the appender of a name. -/
def Act.Leaves (name : Str) : Act → Prop
  | .delFile other _ => other ≠ name
  | .clearAppenders _ => False
  | _ => True

/-- One step with a failed appender: its files keep their contents, and there are no more. -/
theorem step_failed {s s' : System} {act : Act} {name : Str} (hinv : Inv s)
    (ha : appenderOf name s.appenders = some a) (hfile : a.stream.file.isSome = true)
    (hgood : a.stream.good = false) (hstays : act.Leaves name)
    (hs : System.step strftime s act = some s') : ∃ a',
      appenderOf name s'.appenders = some a' ∧ a'.stream = a.stream ∧
      (s'.files name).content = (s.files name).content ∧
      (s'.files name).made = (s.files name).made := by
  by_cases hspares : act.Spares name
  · -- events change nothing
    obtain ⟨a', ha', -, heach⟩ := step_appender hinv ha hspares hs
    obtain ⟨hstream, hd⟩ := logEach_failed hfile hgood heach
    exact ⟨a', ha', hstream, by rw [hd], by rw [hd]⟩
  · cases act with
    | unlink other =>
        -- the file loses its name and keeps its content
        obtain rfl : other = name := not_not.mp hspares
        cases hs
        dsimp only
        rw [Function.update_self]
        exact ⟨a, ha, rfl, rfl, rfl⟩
    | delFile other fails => exact absurd hstays hspares
    | clearAppenders fails => exact hstays.elim
    | log event io => exact absurd trivial hspares
    | setLevel level => exact absurd trivial hspares
    | addFile other fm opens => exact absurd trivial hspares
    | addStdout fm => exact absurd trivial hspares

theorem run_failed {s t : System} {acts : List Act} {name : Str} (hinv : Inv s)
    (ha : appenderOf name s.appenders = some a) (hfile : a.stream.file.isSome = true)
    (hgood : a.stream.good = false) (hstays : ∀ act ∈ acts, act.Leaves name)
    (hrun : (outputSys strftime).exec (fun _ _ => true) s acts = some t) :
    (t.files name).content = (s.files name).content ∧
      (t.files name).made = (s.files name).made := by
  induction acts generalizing s a with
  | nil =>
      cases hrun
      exact ⟨rfl, rfl⟩
  | cons act rest ih =>
      rw [TSys.exec, if_pos rfl] at hrun
      obtain ⟨s', hs, hrest⟩ := Option.bind_eq_some_iff.mp hrun
      obtain ⟨hnow, hlater⟩ := List.forall_mem_cons.mp hstays
      obtain ⟨a₁, ha₁, hstream, hcontent₁, hmade₁⟩ := step_failed hinv ha hfile hgood hnow hs
      obtain ⟨hcontent, hmade⟩ := ih (inv_inductive.step s act s' hinv trivial hs) ha₁
        (hstream ▸ hfile) (hstream ▸ hgood) hlater hrest
      exact ⟨hcontent.trans hcontent₁, hmade.trans hmade₁⟩

/-- The event whose write fails. -/
theorem log_failing {io : Io} {n : Nat} {rest : Str} (hsound : Sound a d)
    (hgood : a.stream.good = true) (hopens : io.opens = true) (hfails : io.fails = some (n, rest))
    (h : a.log strftime d event io = some (a', d')) :
    let before := a.refresh d event io
    Sound before.1 before.2 ∧ before.1.stream.good = true ∧
      before.1.getFormatter = a.getFormatter ∧ ∃ f text,
        before.1.stream.file = some f ∧ a.getFormatter.format strftime event = some text ∧
        a'.stream = ⟨some f, false, rest⟩ ∧
        d' = before.2.append f ((before.1.stream.held ++ text).take n) := by
  have hbefore : Sound (a.refresh d event io).1 (a.refresh d event io).2 ∧
      (a.refresh d event io).1.stream.good = true ∧
      (a.refresh d event io).1.getFormatter = a.getFormatter := by
    refine ⟨hsound.refresh event io, ?_, ?_⟩
    · unfold FileLogAppender.refresh FileLogAppender.reopen
      split
      · -- the file opens even after a `close` that failed
        have hclosed := (a.stream.close_spec d io.closes).1
        generalize a.stream.close d io.closes = r at hclosed ⊢
        show (r.1.openFile r.2 io.opens).1.good = true
        unfold FileStream.openFile
        rw [hclosed, hopens]
        rfl
      · exact hgood
    · unfold FileLogAppender.refresh
      split
      · rfl
      · rfl
  unfold FileLogAppender.log at h
  dsimp only at h ⊢
  generalize a.refresh d event io = r at hbefore h ⊢
  obtain ⟨hsound', hgood', hformatter⟩ := hbefore
  obtain ⟨hfile, herror⟩ := hsound'.good hgood'
  obtain ⟨f, hf⟩ := Option.isSome_iff_exists.mp hfile
  rw [if_neg (by rw [herror]; exact Bool.false_ne_true)] at h
  obtain ⟨text, htext, heq⟩ := Option.map_eq_some_iff.mp h
  rw [FileStream.write_fails hf hgood' hfails] at heq
  cases heq
  exact ⟨hsound', hgood', hformatter, f, text, hf, hformatter ▸ htext, rfl, rfl⟩

/-- A write that fails is the last. When the write for an accepted event fails after `n` bytes, then
after any run that follows and leaves the appender there, the files of the name are those from
before the event with `n` bytes more at the end of the one that was open, of what the stream held
back and the text of the event; that is the text alone if the pattern ends in `%n`. No later event
is in any of them, however often the appender opened its file again, and no new file was made. -/
theorem failed_write_ends_log {s t : System} {acts : List Act} {io : Str → Io} {name : Str}
    {n : Nat} {left : Str} (hreach : (outputSys strftime).Reachable s)
    (ha : appenderOf name s.appenders = some a)
    (hgood : a.stream.good = true) (hlevel : Output.level event.level ≤ Output.level s.level)
    (hopens : (io name).opens = true) (hfails : (io name).fails = some (n, left))
    (hstays : ∀ act ∈ acts, act.Leaves name)
    (hrun : (outputSys strftime).exec (fun _ _ => true) s (.log event io :: acts) = some t) :
    let before := a.refresh (s.files name) event (io name)
    ∃ f text, before.1.stream.file = some f ∧
      a.getFormatter.format strftime event = some text ∧
      (t.files name).content =
        (before.2.append f ((before.1.stream.held ++ text).take n)).content ∧
      (t.files name).made = before.2.made ∧
      (EndsLine a.getFormatter → before.1.stream.held = []) := by
  have hinv : Inv s := inv_inductive.invariant hreach
  rw [TSys.exec, if_pos rfl] at hrun
  obtain ⟨s', hs, hrest⟩ := Option.bind_eq_some_iff.mp hrun
  have hspares : (Act.log event io).Spares name := trivial
  obtain ⟨a₁, ha₁, -, heach⟩ := step_appender hinv ha hspares hs
  rw [Act.accepted, if_pos hlevel] at heach
  obtain ⟨a₂, d₂, hone, hnil⟩ := logEach_cons heach
  cases hnil
  obtain ⟨hsound, hgood', hformatter, f, text, hfile, htext, hfailed, hd⟩ :=
    log_failing (hinv.sound name a ha) hgood hopens hfails hone
  obtain ⟨hcontent, hmade⟩ := run_failed (inv_inductive.step s _ s' hinv trivial hs) ha₁
    (by rw [hfailed]; rfl) (by rw [hfailed]) hstays hrest
  refine ⟨f, text, hfile, htext, ?_, ?_, fun hends => ?_⟩
  · rw [hcontent, hd]
  · rw [hmade, hd]
    rfl
  · rw [← hformatter] at hends
    exact hsound.flushed hends hgood'

section Witness

/-- The disk is full after two bytes, and later has room again; even a new file would be made. -/
def afterFailure : List Act :=
  [logged 102 "three", logged 200 "four", .unlink logName, logged 300 "five"]

def diskFull : Act :=
  .log (eventAt 101 "two") fun _ => ⟨true, none, 100, some (2, bytes "o\n")⟩

theorem failed_write_ends_log_full : ∃ t,
    (outputSys fun _ _ => []).exec (fun _ _ => true) started (diskFull :: afterFailure) = some t ∧
      (t.files logName).content 0 = bytes "one\ntw" ∧ (t.files logName).made = 1 := by
  obtain ⟨t, ht⟩ := Option.isSome_iff_exists.mp
    (show ((outputSys fun _ _ => []).exec (fun _ _ => true) started
      (diskFull :: afterFailure)).isSome = true by decide +kernel)
  have ha : appenderOf logName started.appenders = some startedAppender := by decide +kernel
  have hstays : ∀ act ∈ afterFailure, act.Leaves logName := by
    intro act hact
    simp only [afterFailure, List.mem_cons, List.not_mem_nil, or_false] at hact
    rcases hact with rfl | rfl | rfl | rfl <;> exact trivial
  obtain ⟨f, text, hfile, htext, hcontent, hmade, -⟩ :=
    failed_write_ends_log started_reachable ha rfl (by decide) rfl rfl hstays ht
  have hfile : some 0 = some f := hfile
  have htext : some (bytes "two\n") = some text := htext
  obtain rfl := Option.some.inj hfile
  obtain rfl := Option.some.inj htext
  refine ⟨t, ht, ?_, hmade⟩
  rw [hcontent]
  decide +kernel

end Witness

end Gxh.Log.Output
