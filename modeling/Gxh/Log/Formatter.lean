import Gxh.Http.Message
import Gxh.HttpParser.Basic
import Gxh.Lib.Decimal
import Gxh.Log.Define

/-!
# Log formatters

`LogFormatter::init` and `format` with the format items (`log.cpp`). A string is its bytes, and
the position `i` of the scan is what is left of the pattern.

* Behind `%d` the scan looks at the next character. At the end of the pattern it goes past the
  terminator, and what it reads there is undefined.
* The formats in braces all go into one string, `dateformat`, which every date item gets.
* `DateTimeFormatItem::format` gives `strftime` 64 bytes and writes them out even when the text and
  its terminator do not fit and their contents are undefined.
* `scan_items` says what a text of items does to the scan, and `new_items` what becomes of a
  pattern that is such a text.
-/

namespace Gxh.Log

open HttpParser (bytes)
open Http (cStr)

abbrev Str := List UInt8

/-- `LogLevel::ToString`. -/
def LogLevel.toStr : LogLevel → Str
  | FATAL => bytes "FATAL"
  | ALERT => bytes "ALERT"
  | CRIT => bytes "CRIT"
  | ERROR => bytes "ERROR"
  | WARN => bytes "WARN"
  | NOTICE => bytes "NOTICE"
  | INFO => bytes "INFO"
  | DEBUG => bytes "DEBUG"
  | NOTSET => bytes "NOTSET"

structure LogEvent where
  level : LogLevel
  content : Str
  file : Str
  line : Int
  elapse : Int
  threadId : Nat
  fiberId : Nat
  time : Int
  threadName : Str
  loggerName : Str

/-- `os << n` for a signed number. -/
def signedDecimal (n : Int) : Str :=
  if n < 0 then '-' :: decimal n.natAbs else decimal n.natAbs

/-- `LogFormatter::FormatItem`. -/
inductive FormatItem
  | Message
  | Level
  | LoggerName
  | DateTime (format : Str)
  | Elapse
  | FileName
  | Line
  | ThreadId
  | FiberId
  | ThreadName
  | PercentSign
  | Tab
  | NewLine
  | String (str : Str)
  deriving DecidableEq, Repr

/-- The default argument of `DateTimeFormatItem`, also taken for an empty format. -/
def defaultDate : Str := bytes "%Y-%m-%d %H:%M:%S"

/-- `m_format` of a `DateTimeFormatItem`. -/
def dateFormat (format : Str) : Str := if format = [] then defaultDate else format

/-- What an item writes; `strftime` is the text that `localtime_r` and `strftime` make of a format
and a time, if it fits. -/
def FormatItem.format (strftime : Str → Int → Str) (event : LogEvent) : FormatItem → Str
  | Message => event.content
  | Level => event.level.toStr
  | LoggerName => event.loggerName
  | DateTime format => strftime (cStr (dateFormat format)) event.time
  | Elapse => signedDecimal event.elapse
  | FileName => event.file
  | Line => signedDecimal event.line
  | ThreadId => decimal event.threadId
  | FiberId => decimal event.fiberId
  | ThreadName => event.threadName
  | PercentSign => bytes "%"
  | Tab => bytes "\t"
  | NewLine => bytes "\n"
  | String str => str

/-- The text of a date and its terminator fit in `buf`. -/
def FormatItem.fits (strftime : Str → Int → Str) (event : LogEvent) : FormatItem → Bool
  | DateTime format => (strftime (cStr (dateFormat format)) event.time).length < 64
  | _ => true

/-- `s_format_items`. -/
def formatItems (c : UInt8) : Option FormatItem :=
  if c = 'm' then some .Message
  else if c = 'p' then some .Level
  else if c = 'c' then some .LoggerName
  else if c = 'r' then some .Elapse
  else if c = 'f' then some .FileName
  else if c = 'l' then some .Line
  else if c = 't' then some .ThreadId
  else if c = 'F' then some .FiberId
  else if c = 'N' then some .ThreadName
  else if c = '%' then some .PercentSign
  else if c = 'T' then some .Tab
  else if c = 'n' then some .NewLine
  else none

/-! ## The scan -/

/-- An entry of `patterns`, of type 0 or 1. -/
inductive Pattern
  | string (str : Str)
  | item (c : UInt8)
  deriving DecidableEq, Repr

structure Scan where
  patterns : List Pattern
  tmp : Str
  dateformat : Str
  deriving DecidableEq, Repr

namespace Scan

def start : Scan := ⟨[], [], []⟩

/-- Move `tmp` to the patterns. -/
def flush (st : Scan) : Scan :=
  { st with patterns := if st.tmp ≠ [] then st.patterns ++ [.string st.tmp] else st.patterns
            tmp := [] }

def push (st : Scan) (c : UInt8) : Scan := { st with patterns := st.patterns ++ [.item c] }

end Scan

/-- Where the scan is: `parsing_string` or not, or in the loop over a date format. -/
inductive Mode
  | string
  | pattern
  | braces
  deriving DecidableEq, Repr

/-- How the scan ends. -/
inductive ScanEnd
  | done (st : Scan)
  | notClosed
  | undefined
  deriving DecidableEq, Repr

/-- The first loop of `init`. -/
def scan : Str → Mode → Scan → ScanEnd
  | [], .string, st => .done st
  | [], .pattern, st => .done st
  | [], .braces, _ => .notClosed
  | c :: rest, .string, st =>
      if c = '%' then scan rest .pattern st.flush
      else scan rest .string { st with tmp := st.tmp ++ [c] }
  | c :: rest, .pattern, st =>
      if c ≠ 'd' then scan rest .string (st.push c)
      else
        match rest with
        -- `i` is the size plus one at the test for the closing brace
        | [] => .undefined
        | b :: rest =>
            if b ≠ '{' then scan (b :: rest) .string (st.push c)
            else scan rest .braces (st.push c)
  | c :: rest, .braces, st =>
      if c ≠ '}' then scan rest .braces { st with dateformat := st.dateformat ++ [c] }
      else scan rest .string st

/-- The second loop of `init`: the items, and whether it met an unknown one. -/
def build (dateformat : Str) : List Pattern → List FormatItem × Bool
  | [] => ([], false)
  | .string str :: rest =>
      let r := build dateformat rest
      (.String str :: r.1, r.2)
  | .item c :: rest =>
      if c = 'd' then
        let r := build dateformat rest
        (.DateTime dateformat :: r.1, r.2)
      else
        match formatItems c with
        | none => ([], true)
        | some item =>
            let r := build dateformat rest
            (item :: r.1, r.2)

structure LogFormatter where
  pattern : Str
  items : List FormatItem
  error : Bool
  deriving DecidableEq, Repr

namespace LogFormatter

/-- The constructor, which runs `init`; `none` if it reads behind the terminator. -/
def new (pattern : Str) : Option LogFormatter :=
  match scan pattern .string .start with
  | .undefined => none
  | .notClosed => some ⟨pattern, [], true⟩
  | .done st =>
      let st := st.flush
      let r := build st.dateformat st.patterns
      some ⟨pattern, r.1, r.2⟩

def isError (fm : LogFormatter) : Bool := fm.error

/-- `format(event)`; `none` if it writes out an undefined `buf`. -/
def format (fm : LogFormatter) (strftime : Str → Int → Str) (event : LogEvent) : Option Str :=
  if fm.items.all (FormatItem.fits strftime event) then
    some (fm.items.flatMap (FormatItem.format strftime event))
  else none

end LogFormatter

/-! ## Texts of items -/

/-- The letters that the documentation lists, besides the one of a date. -/
def itemLetters : Str := bytes "mpcrfltFN%Tn"

theorem formatItems_isSome (c : UInt8) : (formatItems c).isSome = true ↔ c ∈ itemLetters := by
  have hletters : itemLetters =
      [('m' : UInt8), 'p', 'c', 'r', 'f', 'l', 't', 'F', 'N', '%', 'T', 'n'] := rfl
  have hite : ∀ (p : Prop) [Decidable p] (a : FormatItem) (rest : Option FormatItem),
      (if p then some a else rest).isSome = true ↔ p ∨ rest.isSome = true := by
    intro p _ a rest
    by_cases hp : p <;> simp [hp]
  rw [hletters]
  unfold formatItems
  simp only [hite, List.mem_cons, List.not_mem_nil, Option.isSome_none, Bool.false_eq_true]

/-- What a pattern is made of. -/
inductive Item
  | literal (str : Str) (plain : ∀ c ∈ str, c ≠ ('%' : UInt8))
  | plain (c : UInt8) (notDate : c ≠ 'd')
  | date
  | dateWith (format : Str) (closed : ∀ c ∈ format, c ≠ ('}' : UInt8))

namespace Item

def text : Item → Str
  | literal str _ => str
  | plain c _ => ['%', c]
  | date => ['%', 'd']
  | dateWith format _ => ('%' : UInt8) :: 'd' :: '{' :: (format ++ [('}' : UInt8)])

/-- The items of the documentation. -/
def Known : Item → Prop
  | plain c _ => c ∈ itemLetters
  | _ => True

/-- What an item does to the scan. -/
def scanned (st : Scan) : Item → Scan
  | literal str _ => { st with tmp := st.tmp ++ str }
  | plain c _ => st.flush.push c
  | date => st.flush.push 'd'
  | dateWith format _ =>
      let st := st.flush.push 'd'
      { st with dateformat := st.dateformat ++ format }

end Item

theorem forall_ne_of_not_mem {x : UInt8} {str : Str} (h : x ∉ str) : ∀ c ∈ str, c ≠ x :=
  fun _ hc heq => h (heq ▸ hc)

/-- The text of a list of items. -/
def textOf (items : List Item) : Str := items.flatMap Item.text

/-- A date item without braces is followed by some text, which does not begin with a brace. -/
def Separated : List Item → Str → Prop
  | [], _ => True
  | .date :: rest, tail =>
      (∃ c s, textOf rest ++ tail = c :: s ∧ c ≠ ('{' : UInt8)) ∧ Separated rest tail
  | _ :: rest, tail => Separated rest tail

theorem scan_literal {str : Str} (h : ∀ c ∈ str, c ≠ ('%' : UInt8)) (rest : Str) (st : Scan) :
    scan (str ++ rest) .string st = scan rest .string { st with tmp := st.tmp ++ str } := by
  induction str generalizing st with
  | nil => simp
  | cons c str ih =>
      have hc : c ≠ ('%' : UInt8) := h c List.mem_cons_self
      rw [List.cons_append, scan, if_neg hc, ih fun x hx => h x (List.mem_cons_of_mem _ hx)]
      simp

theorem scan_braces {format : Str} (h : ∀ c ∈ format, c ≠ ('}' : UInt8)) (rest : Str) (st : Scan) :
    scan (format ++ rest) .braces st =
      scan rest .braces { st with dateformat := st.dateformat ++ format } := by
  induction format generalizing st with
  | nil => simp
  | cons c format ih =>
      have hc : c ≠ ('}' : UInt8) := h c List.mem_cons_self
      rw [List.cons_append, scan, if_pos hc, ih fun x hx => h x (List.mem_cons_of_mem _ hx)]
      simp

/-- One item, by the next characters where these matter. -/
theorem scan_item (item : Item) (rest : Str) (st : Scan)
    (hdate : item = .date → ∃ c s, rest = c :: s ∧ c ≠ ('{' : UInt8)) :
    scan (item.text ++ rest) .string st = scan rest .string (item.scanned st) := by
  cases item with
  | literal str hplain => exact scan_literal hplain rest st
  | plain c hc =>
      show scan ('%' :: c :: rest) .string st = _
      rw [scan, if_pos rfl, scan.eq_def]
      exact if_pos hc
  | date =>
      obtain ⟨c, s, rfl, hc⟩ := hdate rfl
      show scan ('%' :: 'd' :: c :: s) .string st = _
      rw [scan, if_pos rfl, scan.eq_def]
      dsimp only
      rw [if_neg (not_not.mpr rfl), if_pos hc]
      rfl
  | dateWith format hclosed =>
      show scan ('%' :: 'd' :: '{' :: (format ++ [('}' : UInt8)] ++ rest)) .string st = _
      rw [scan, if_pos rfl, scan.eq_def]
      dsimp only
      rw [if_neg (not_not.mpr rfl), if_neg (not_not.mpr rfl), List.append_assoc,
        scan_braces hclosed, List.singleton_append, scan, if_neg (not_not.mpr rfl)]
      rfl

theorem Separated.tail {item : Item} {items : List Item} {tail : Str}
    (h : Separated (item :: items) tail) : Separated items tail := by
  cases item with
  | date => exact h.2
  | _ => exact h

theorem scan_items {items : List Item} {tail : Str} (h : Separated items tail) (st : Scan) :
    scan (textOf items ++ tail) .string st = scan tail .string (items.foldl Item.scanned st) := by
  induction items generalizing st with
  | nil => rfl
  | cons item items ih =>
      show scan (item.text ++ textOf items ++ tail) .string st = _
      rw [List.append_assoc, scan_item, ih h.tail]
      · rfl
      · rintro rfl
        exact h.1

/-! ## What the items write -/

/-- The code's items, or a date item. -/
def Pattern.Known : Pattern → Prop
  | string _ => True
  | item c => c = 'd' ∨ (formatItems c).isSome = true

/-- The format of a date item, empty without braces. -/
def Item.format : Item → Option Str
  | date => some []
  | dateWith format _ => some format
  | _ => none

def formatsOf (items : List Item) : List Str := items.filterMap Item.format

section Write

variable (strftime : Str → Int → Str) (event : LogEvent)

/-- What an entry writes when the dates are written in the format `shared`. -/
def Pattern.write (shared : Str) : Pattern → Str
  | string str => str
  | item c =>
      if c = 'd' then strftime (cStr (dateFormat shared)) event.time
      else ((formatItems c).map (FormatItem.format strftime event)).getD []

/-- What an item writes when the dates are written in the format `shared`. -/
def Item.writeWith (shared : Str) : Item → Str
  | literal str _ => str
  | plain c _ => ((formatItems c).map (FormatItem.format strftime event)).getD []
  | date => strftime (cStr (dateFormat shared)) event.time
  | dateWith _ _ => strftime (cStr (dateFormat shared)) event.time

variable {strftime event}

theorem build_error (shared : Str) (patterns : List Pattern) :
    (build shared patterns).2 = false ↔ ∀ p ∈ patterns, p.Known := by
  induction patterns with
  | nil => exact iff_of_true rfl nofun
  | cons p rest ih =>
      rw [List.forall_mem_cons]
      cases p with
      | string str => exact ih.trans (and_iff_right trivial).symm
      | item c =>
          unfold build
          split
          · rename_i hd
            exact ih.trans (and_iff_right (.inl hd)).symm
          · rename_i hd
            split
            · rename_i hnone
              -- a letter that is not in the table makes an error item
              refine iff_of_false nofun fun h => ?_
              rcases h.1 with hc | hc
              · exact hd hc
              · rw [hnone] at hc
                cases hc
            · rename_i item hitem
              refine ih.trans (and_iff_right (.inr ?_)).symm
              rw [hitem]
              rfl

theorem build_write {shared : Str} {patterns : List Pattern} (h : ∀ p ∈ patterns, p.Known) :
    (build shared patterns).1.flatMap (FormatItem.format strftime event) =
      patterns.flatMap (Pattern.write strftime event shared) := by
  induction patterns with
  | nil => rfl
  | cons p rest ih =>
      rw [List.forall_mem_cons] at h
      have hrest := ih h.2
      cases p with
      | string str =>
          rw [build, List.flatMap_cons, List.flatMap_cons, hrest]
          rfl
      | item c =>
          unfold build
          split
          · rename_i hd
            rw [List.flatMap_cons, List.flatMap_cons, hrest, Pattern.write, if_pos hd]
            rfl
          · rename_i hd
            obtain ⟨item, hitem⟩ := Option.isSome_iff_exists.mp (h.1.resolve_left hd)
            rw [hitem]
            dsimp only
            rw [List.flatMap_cons, List.flatMap_cons, hrest, Pattern.write, if_neg hd, hitem]
            rfl

/-- What the scan has collected so far, written out. -/
def Scan.written (strftime : Str → Int → Str) (event : LogEvent) (shared : Str) (st : Scan) : Str :=
  st.patterns.flatMap (Pattern.write strftime event shared) ++ st.tmp

theorem Scan.written_flush (shared : Str) (st : Scan) :
    st.flush.patterns.flatMap (Pattern.write strftime event shared) =
      st.written strftime event shared := by
  unfold Scan.flush Scan.written
  by_cases htmp : st.tmp = []
  · simp [htmp]
  · simp [htmp, Pattern.write]

theorem Scan.written_push (shared : Str) (st : Scan) (c : UInt8) :
    (st.flush.push c).written strftime event shared =
      st.written strftime event shared ++ Pattern.write strftime event shared (.item c) := by
  rw [← Scan.written_flush shared st]
  show (st.flush.patterns ++ [Pattern.item c]).flatMap _ ++ [] = _
  rw [List.append_nil, List.flatMap_append, List.flatMap_singleton]

theorem Item.written_scanned (shared : Str) (st : Scan) (item : Item) :
    (item.scanned st).written strftime event shared =
      st.written strftime event shared ++ item.writeWith strftime event shared := by
  cases item with
  | literal str _ => exact (List.append_assoc _ _ _).symm
  | plain c hc =>
      refine (Scan.written_push shared st c).trans ?_
      rw [Pattern.write, if_neg hc]
      rfl
  | date => exact Scan.written_push shared st 'd'
  | dateWith format _ => exact Scan.written_push shared st 'd'

theorem written_items (shared : Str) (items : List Item) (st : Scan) :
    (items.foldl Item.scanned st).written strftime event shared =
      st.written strftime event shared ++
        items.flatMap (Item.writeWith strftime event shared) := by
  induction items generalizing st with
  | nil => exact (List.append_nil _).symm
  | cons item items ih =>
      rw [List.foldl_cons, ih, Item.written_scanned, List.flatMap_cons, List.append_assoc]

end Write

/-! ## What the scan keeps -/

section All

variable {P : Pattern → Prop}

/-- All entries collected so far satisfy `P`. -/
def Scan.All (P : Pattern → Prop) (st : Scan) : Prop := ∀ p ∈ st.patterns, P p

/-- The entry that an item adds, if it is not text, satisfies `P`. -/
def Item.All (P : Pattern → Prop) : Item → Prop
  | literal _ _ => True
  | plain c _ => P (.item c)
  | date => P (.item 'd')
  | dateWith _ _ => P (.item 'd')

theorem Scan.all_flush (hstring : ∀ str, P (.string str)) (st : Scan) :
    st.flush.All P ↔ st.All P := by
  unfold Scan.flush Scan.All
  by_cases htmp : st.tmp = []
  · simp [htmp]
  · simp [htmp, or_imp, forall_and, hstring]

theorem Scan.all_push (hstring : ∀ str, P (.string str)) (st : Scan) (c : UInt8) :
    (st.flush.push c).All P ↔ st.All P ∧ P (.item c) := by
  rw [← Scan.all_flush hstring st]
  show (∀ p ∈ st.flush.patterns ++ [Pattern.item c], P p) ↔ _
  rw [List.forall_mem_append, List.forall_mem_singleton]
  rfl

theorem Item.all_scanned (hstring : ∀ str, P (.string str)) (st : Scan) (item : Item) :
    (item.scanned st).All P ↔ st.All P ∧ item.All P := by
  cases item with
  | literal str _ => exact (and_iff_left trivial).symm
  | plain c _ => exact Scan.all_push hstring st c
  | date => exact Scan.all_push hstring st 'd'
  | dateWith format _ => exact Scan.all_push hstring st 'd'

theorem all_items (hstring : ∀ str, P (.string str)) (items : List Item) (st : Scan) :
    (items.foldl Item.scanned st).All P ↔ st.All P ∧ ∀ item ∈ items, item.All P := by
  induction items generalizing st with
  | nil => exact (and_iff_left nofun).symm
  | cons item items ih =>
      rw [List.foldl_cons, ih, Item.all_scanned hstring, List.forall_mem_cons, and_assoc]

end All

theorem Item.all_known (item : Item) : item.All Pattern.Known ↔ item.Known := by
  cases item with
  | literal str _ => rfl
  | plain c hc => exact (or_iff_right hc).trans (formatItems_isSome c)
  | date => exact iff_true_intro (.inl rfl)
  | dateWith format _ => exact iff_true_intro (.inl rfl)

theorem dateformat_items (items : List Item) (st : Scan) :
    (items.foldl Item.scanned st).dateformat = st.dateformat ++ (formatsOf items).flatten := by
  induction items generalizing st with
  | nil => exact (List.append_nil _).symm
  | cons item items ih =>
      rw [List.foldl_cons, ih]
      cases item with
      | literal str _ => rfl
      | plain c _ => rfl
      | date => rfl
      | dateWith format _ => exact List.append_assoc _ _ _

/-! ## The formatter of a text of items -/

/-- The entries of a text of items. -/
def entries (items : List Item) : List Pattern := (items.foldl Item.scanned .start).flush.patterns

theorem entries_all {P : Pattern → Prop} (hstring : ∀ str, P (.string str)) (items : List Item) :
    (∀ p ∈ entries items, P p) ↔ ∀ item ∈ items, item.All P := by
  refine (Scan.all_flush hstring _).trans ((all_items hstring items _).trans ?_)
  exact and_iff_right nofun

theorem entries_known (items : List Item) :
    (∀ p ∈ entries items, p.Known) ↔ ∀ item ∈ items, item.Known :=
  (entries_all (fun _ => trivial) items).trans
    (forall₂_congr fun item _ => item.all_known)

theorem entries_write (strftime : Str → Int → Str) (event : LogEvent) (shared : Str)
    (items : List Item) :
    (entries items).flatMap (Pattern.write strftime event shared) =
      items.flatMap (Item.writeWith strftime event shared) :=
  (Scan.written_flush shared _).trans (written_items shared items _)

/-- The text of the items may be followed by a lone percent sign, which is dropped. -/
theorem new_items {items : List Item} {tail : Str} (h : Separated items tail)
    (htail : tail = [] ∨ tail = [('%' : UInt8)]) :
    LogFormatter.new (textOf items ++ tail) =
      some ⟨textOf items ++ tail, (build (formatsOf items).flatten (entries items)).1,
        (build (formatsOf items).flatten (entries items)).2⟩ := by
  have hscan : ∃ st, scan (textOf items ++ tail) .string .start = .done st ∧
      st.flush = (items.foldl Item.scanned .start).flush := by
    rw [scan_items h]
    rcases htail with rfl | rfl
    · exact ⟨_, rfl, rfl⟩
    · refine ⟨_, rfl, ?_⟩
      unfold Scan.flush
      simp
  obtain ⟨st, hdone, hflush⟩ := hscan
  unfold LogFormatter.new
  rw [hdone]
  dsimp only
  rw [hflush]
  show some (LogFormatter.mk _ (build (items.foldl Item.scanned .start).dateformat _).1
    (build (items.foldl Item.scanned .start).dateformat _).2) = _
  rw [dateformat_items]
  rfl

end Gxh.Log
