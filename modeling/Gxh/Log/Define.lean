import Gxh.Config.ConfigVar
import Mathlib.Data.String.Basic
import Mathlib.Data.List.Nodup
import Mathlib.Data.List.Forall2

/-!
# Loggers and their configuration

`LogDefine` and the listener on `logs` (`log.cpp`). The listener compares the two sets of
definitions by name, sets up the loggers that are new or changed and silences those that are gone.

* `LogDefine::operator==` compares `appenders` with itself, so a change of appenders is no
  change; `setValue` compares whole sets with it and returns early then.
* For a changed logger the listener writes `==` for `=`: the pointer stays null.

`Settled` says which pairs of sets do no harm. A formatter is its pattern here.
-/

namespace Gxh.Log

open Config

/-- `LogLevel::Level`. -/
inductive LogLevel
  | FATAL
  | ALERT
  | CRIT
  | ERROR
  | WARN
  | NOTICE
  | INFO
  | DEBUG
  | NOTSET
  deriving DecidableEq, Repr

/-- The default argument of `LogFormatter::LogFormatter`. -/
def defaultPattern : String :=
  "%d\x7b%Y-%m-%d %H:%M:%S\x7d [%rms]%T%t%T%N%T%F%T[%p]%T[%c]%T%f:%l%T%m%n"

/-- `FileLogAppender` and `StdoutLogAppender`, with the pattern of `m_formatter`. -/
inductive LogAppender
  | File (file : String) (pattern : String)
  | Stdout (pattern : String)
  deriving DecidableEq, Repr

structure Logger where
  level : LogLevel
  appenders : List LogAppender
  deriving DecidableEq, Repr

/-- `LoggerManager::m_loggers`. -/
structure LoggerManager where
  loggers : String → Option Logger

namespace LoggerManager

/-- `getLogger`: a missing logger is made, at level `INFO` and without appenders. -/
def getLogger (m : LoggerManager) (name : String) : LoggerManager :=
  if (m.loggers name).isSome then m
  else ⟨Function.update m.loggers name (some ⟨.INFO, []⟩)⟩

/-- A member function of the logger that `getLogger(name)` has returned. -/
def modify (m : LoggerManager) (name : String) (f : Logger → Logger) : LoggerManager :=
  ⟨Function.update m.loggers name ((m.loggers name).map f)⟩

end LoggerManager

def Logger.setLevel (level : LogLevel) (l : Logger) : Logger := { l with level }

def Logger.clearAppenders (l : Logger) : Logger := { l with appenders := [] }

def Logger.addAppender (a : LogAppender) (l : Logger) : Logger :=
  { l with appenders := l.appenders ++ [a] }

/-! ## Definitions -/

structure LogAppenderDefine where
  /-- 1 File, 2 Stdout -/
  type : Int
  pattern : String
  file : String
  deriving DecidableEq, Repr

structure LogDefine where
  name : String
  level : LogLevel
  appenders : List LogAppenderDefine
  deriving DecidableEq, Repr

/-- `LogDefine::operator==`, whose `appenders == appenders` does not mention `oth`. -/
def LogDefine.eq (d oth : LogDefine) : Bool :=
  d.name == oth.name && d.level == oth.level && d.appenders == d.appenders

/-- `std::set<LogDefine>`: `operator<` compares the names. -/
structure DefineSet where
  defines : List LogDefine
  sorted : defines.Pairwise fun a b => a.name < b.name

/-- `operator==` of the sets: the same length, and equal elements in order. -/
instance : BEq DefineSet where
  beq a b := a.defines.length == b.defines.length &&
    (a.defines.zip b.defines).all fun p => p.1.eq p.2

/-- `std::set::find`: an element with the same name. -/
def DefineSet.find (s : DefineSet) (d : LogDefine) : Option LogDefine :=
  s.defines.find? fun e => e.name == d.name

/-! ## The listener -/

/-- The pattern of the formatter that is set. -/
def LogAppenderDefine.formatPattern (a : LogAppenderDefine) : String :=
  if a.pattern.isEmpty then defaultPattern else a.pattern

/-- The loop over `appenders`, on the logger `name`. With the daemon flag there are no terminal
appenders; a type that is neither 1 nor 2 leaves `ap` null, and `ap->setFormatter` ends the
process. -/
def addAppenders (daemon : Bool) (name : String) :
    List LogAppenderDefine → LoggerManager → Option LoggerManager
  | [], m => some m
  | a :: rest, m =>
      if a.type = 1 then
        addAppenders daemon name rest
          (m.modify name (·.addAppender (.File a.file a.formatPattern)))
      else if a.type = 2 then
        if daemon then addAppenders daemon name rest m
        else addAppenders daemon name rest
          (m.modify name (·.addAppender (.Stdout a.formatPattern)))
      else none

/-- From `logger->setLevel` on; `logger` is null if it is `none`. -/
def configure (daemon : Bool) (logger : Option String) (i : LogDefine) (m : LoggerManager) :
    Option LoggerManager :=
  match logger with
  | none => none
  | some name =>
      addAppenders daemon name i.appenders
        ((m.modify name (·.setLevel i.level)).modify name (·.clearAppenders))

/-- The body of the first loop. -/
def applyDefine (daemon : Bool) (old : DefineSet) (i : LogDefine) (m : LoggerManager) :
    Option LoggerManager :=
  match old.find i with
  | none => configure daemon (some i.name) i (m.getLogger i.name)
  | some it =>
      if i.eq it then some m
      else
        -- `logger == GXH_LOG_NAME(i.name)` assigns nothing
        configure daemon none i (m.getLogger i.name)

/-- The body of the second loop. -/
def silence (new : DefineSet) (i : LogDefine) (m : LoggerManager) : LoggerManager :=
  match new.find i with
  | none =>
      ((m.getLogger i.name).modify i.name (·.setLevel .NOTSET)).modify i.name (·.clearAppenders)
  | some _ => m

def applyAll (daemon : Bool) (old : DefineSet) :
    List LogDefine → LoggerManager → Option LoggerManager
  | [], m => some m
  | i :: rest, m => (applyDefine daemon old i m).bind (applyAll daemon old rest)

def silenceAll (new : DefineSet) (l : List LogDefine) (m : LoggerManager) : LoggerManager :=
  l.foldl (fun m i => silence new i m) m

/-- The listener of `LogIniter`. -/
def onLogChange (daemon : Bool) : OnChange DefineSet LoggerManager :=
  fun _ old new m => (applyAll daemon old new.defines m).map (silenceAll new old.defines)

/-- `g_log_defines`, once `LogIniter` has run. -/
def logVar (daemon : Bool) (v : DefineSet) : ConfigVar DefineSet LoggerManager :=
  ConfigVar.addListener ⟨v, []⟩ (onLogChange daemon)

/-! ## The property -/

/-- The appender that a definition describes. -/
def LogAppenderDefine.appender (a : LogAppenderDefine) : Option LogAppender :=
  if a.type = 1 then some (.File a.file a.formatPattern)
  else if a.type = 2 then some (.Stdout a.formatPattern)
  else none

/-- The logger that a definition describes. -/
def LogDefine.logger (d : LogDefine) : Option Logger :=
  (d.appenders.mapM LogAppenderDefine.appender).map fun l => ⟨d.level, l⟩

/-- The logger of that name is as defined. -/
def Configured (m : LoggerManager) (d : LogDefine) : Prop :=
  ∃ l, d.logger = some l ∧ m.loggers d.name = some l

/-- The call has returned, the loggers of `new` are as defined, and those that are gone are
silent. -/
def Converges (old new : DefineSet) (m : LoggerManager) : Prop :=
  ∃ c m', (logVar false old).setValue new m = some (c, m') ∧
    (∀ d ∈ new.defines, Configured m' d) ∧
    ∀ d ∈ old.defines, new.find d = none → m'.loggers d.name = some ⟨.NOTSET, []⟩

/-- The definition describes the same logger as the one of its name in the old set, or it is new
and has appenders of the two types only. -/
def LogDefine.SettledIn (old : DefineSet) (d : LogDefine) : Prop :=
  match old.find d with
  | some d₀ => d.logger = d₀.logger
  | none => ∀ a ∈ d.appenders, a.type = 1 ∨ a.type = 2

/-- No logger that stays changes its level or its appenders, and the new ones can be made. -/
def Settled (old new : DefineSet) : Prop := ∀ d ∈ new.defines, d.SettledIn old

/-! ## Names -/

theorem LogDefine.eq_iff {d oth : LogDefine} :
    d.eq oth = true ↔ d.name = oth.name ∧ d.level = oth.level := by
  simp [LogDefine.eq]

namespace DefineSet

variable {s : DefineSet} {d e : LogDefine}

theorem names_nodup (s : DefineSet) : (s.defines.map (·.name)).Nodup :=
  List.pairwise_map.mpr (s.sorted.imp fun h => ne_of_lt h)

/-- Two elements of one name are the same. -/
theorem eq_of_name (hd : d ∈ s.defines) (he : e ∈ s.defines) (h : d.name = e.name) : d = e :=
  List.inj_on_of_nodup_map s.names_nodup hd he h

theorem find_eq_none : s.find d = none ↔ ∀ e ∈ s.defines, e.name ≠ d.name := by
  simp [find]

theorem find_eq_some : s.find d = some e ↔ e ∈ s.defines ∧ e.name = d.name := by
  constructor
  · intro h
    exact ⟨List.mem_of_find?_eq_some h, by simpa using List.find?_some h⟩
  · rintro ⟨hmem, hname⟩
    cases hfind : s.find d with
    | none => exact absurd hname (find_eq_none.mp hfind e hmem)
    | some e' =>
        have hname' : e'.name = d.name := by simpa using List.find?_some hfind
        rw [eq_of_name (List.mem_of_find?_eq_some hfind) hmem (hname'.trans hname.symm)]

/-- Equal sets have the same names and levels, in order. -/
theorem forall₂_of_beq {t : DefineSet} (h : (s == t) = true) :
    List.Forall₂ (fun d e => d.name = e.name ∧ d.level = e.level) s.defines t.defines := by
  have hpair : s.defines.length = t.defines.length ∧
      ∀ p ∈ s.defines.zip t.defines, p.1.eq p.2 = true := by
    simpa [BEq.beq] using h
  refine List.forall₂_iff_zip.mpr ⟨hpair.1, fun {d e} hmem => ?_⟩
  exact LogDefine.eq_iff.mp (hpair.2 (d, e) hmem)

end DefineSet

/-! ## The listener, name by name -/

/-- What the listener assigns to the logger of a definition in the first loop: nothing, or a
whole logger; `none` if it ends the process. -/
def effect (old : DefineSet) (i : LogDefine) : Option (Option Logger) :=
  match old.find i with
  | none => i.logger.map some
  | some it => if i.eq it then some none else none

def LoggerManager.assign (m : LoggerManager) (name : String) : Option Logger → LoggerManager
  | none => m
  | some l => ⟨Function.update m.loggers name (some l)⟩

theorem LoggerManager.modify_eq {m : LoggerManager} {name : String} {l : Logger}
    (h : m.loggers name = some l) (f : Logger → Logger) :
    m.modify name f = m.assign name (some (f l)) := by
  simp [modify, assign, h]

@[simp] theorem LoggerManager.assign_self (m : LoggerManager) (name : String) (l : Logger) :
    (m.assign name (some l)).loggers name = some l := by
  simp [assign]

theorem LoggerManager.assign_of_ne (m : LoggerManager) {name name' : String} (o : Option Logger)
    (h : name' ≠ name) : (m.assign name o).loggers name' = m.loggers name' := by
  cases o with
  | none => rfl
  | some l => simp [assign, h]

@[simp] theorem LoggerManager.assign_assign (m : LoggerManager) (name : String) (l l' : Logger) :
    (m.assign name (some l)).assign name (some l') = m.assign name (some l') := by
  simp [assign]

theorem LoggerManager.getLogger_assign (m : LoggerManager) (name : String) (l : Logger) :
    (m.getLogger name).assign name (some l) = m.assign name (some l) := by
  unfold getLogger
  split
  · rfl
  · simp [assign]

theorem LoggerManager.getLogger_some (m : LoggerManager) (name : String) :
    ∃ l, (m.getLogger name).loggers name = some l := by
  unfold getLogger
  split
  · rename_i h
    exact Option.isSome_iff_exists.mp h
  · exact ⟨_, Function.update_self _ _ _⟩

/-- The loop adds the appenders that are described, in order, or meets one it cannot make. -/
theorem addAppenders_eq (name : String) (l : List LogAppenderDefine) (m : LoggerManager)
    (lg : Logger) :
    addAppenders false name l (m.assign name (some lg)) =
      (l.mapM LogAppenderDefine.appender).map fun apps =>
        m.assign name (some { lg with appenders := lg.appenders ++ apps }) := by
  induction l generalizing lg with
  | nil => simp [addAppenders]
  | cons a rest ih =>
      have hadd : ∀ x, a.appender = some x →
          addAppenders false name rest ((m.assign name (some lg)).modify name (·.addAppender x)) =
            ((a :: rest).mapM LogAppenderDefine.appender).map fun apps =>
              m.assign name (some { lg with appenders := lg.appenders ++ apps }) := by
        intro x hx
        rw [LoggerManager.modify_eq (m.assign_self name lg), LoggerManager.assign_assign, ih,
          List.mapM_cons, hx]
        cases rest.mapM LogAppenderDefine.appender with
        | none => rfl
        | some apps => simp [Logger.addAppender]
      unfold addAppenders
      by_cases h1 : a.type = 1
      · rw [if_pos h1]
        exact hadd _ (if_pos h1)
      · by_cases h2 : a.type = 2
        · rw [if_neg h1, if_pos h2, if_neg (by simp)]
          exact hadd _ (by simp [LogAppenderDefine.appender, h2])
        · rw [if_neg h1, if_neg h2, List.mapM_cons]
          simp [LogAppenderDefine.appender, h1, h2]

/-- Setting up a logger makes it what the definition describes. -/
theorem configure_eq (m : LoggerManager) (i : LogDefine) :
    configure false (some i.name) i (m.getLogger i.name) =
      i.logger.map fun l => m.assign i.name (some l) := by
  obtain ⟨lg, hlg⟩ := m.getLogger_some i.name
  unfold configure
  dsimp only
  rw [LoggerManager.modify_eq hlg, LoggerManager.modify_eq (LoggerManager.assign_self _ _ _),
    LoggerManager.assign_assign, addAppenders_eq]
  unfold LogDefine.logger
  cases i.appenders.mapM LogAppenderDefine.appender with
  | none => rfl
  | some apps => simp [Logger.clearAppenders, Logger.setLevel, LoggerManager.getLogger_assign]

theorem applyDefine_eq (old : DefineSet) (i : LogDefine) (m : LoggerManager) :
    applyDefine false old i m = (effect old i).map (m.assign i.name) := by
  unfold applyDefine effect
  cases old.find i with
  | none =>
      show configure false (some i.name) i (m.getLogger i.name) = _
      rw [configure_eq]
      cases i.logger <;> rfl
  | some it =>
      dsimp only
      split
      · rfl
      · rfl

/-- The first loop: every definition has its effect, and other loggers stay. -/
theorem applyAll_some {old : DefineSet} {l : List LogDefine} {m m' : LoggerManager}
    (hl : (l.map (·.name)).Nodup) (h : applyAll false old l m = some m') :
    (∀ i ∈ l, ∃ o, effect old i = some o ∧
      m'.loggers i.name = (m.assign i.name o).loggers i.name) ∧
    ∀ name, (∀ i ∈ l, i.name ≠ name) → m'.loggers name = m.loggers name := by
  induction l generalizing m with
  | nil =>
      cases h
      exact ⟨fun i hi => absurd hi (List.not_mem_nil), fun _ _ => rfl⟩
  | cons i rest ih =>
      rw [List.map_cons, List.nodup_cons] at hl
      obtain ⟨hnot, hrest⟩ := hl
      -- the names are different, so the later definitions leave this logger alone
      have hne : ∀ j ∈ rest, j.name ≠ i.name := fun j hj hname =>
        hnot (hname ▸ List.mem_map_of_mem hj)
      unfold applyAll at h
      rw [applyDefine_eq] at h
      obtain ⟨m₁, hm₁, hm'⟩ := Option.bind_eq_some_iff.mp h
      rw [Option.map_eq_some_iff] at hm₁
      obtain ⟨o, ho, rfl⟩ := hm₁
      obtain ⟨hin, hout⟩ := ih hrest hm'
      refine ⟨fun j hj => ?_, fun name hname => ?_⟩
      · rcases List.mem_cons.mp hj with rfl | hj
        · exact ⟨o, ho, hout j.name hne⟩
        · obtain ⟨o', ho', heq⟩ := hin j hj
          refine ⟨o', ho', heq.trans ?_⟩
          cases o' with
          | none => exact LoggerManager.assign_of_ne m o (hne j hj)
          | some lg => simp
      · rw [hout name fun j hj => hname j (List.mem_cons_of_mem i hj)]
        exact LoggerManager.assign_of_ne m o (hname i List.mem_cons_self).symm

theorem applyAll_isSome {old : DefineSet} {l : List LogDefine}
    (hl : ∀ i ∈ l, (effect old i).isSome = true) (m : LoggerManager) :
    ∃ m', applyAll false old l m = some m' := by
  induction l generalizing m with
  | nil => exact ⟨m, rfl⟩
  | cons i rest ih =>
      obtain ⟨o, ho⟩ := Option.isSome_iff_exists.mp (hl i List.mem_cons_self)
      obtain ⟨m', hm'⟩ := ih (fun j hj => hl j (List.mem_cons_of_mem i hj)) (m.assign i.name o)
      refine ⟨m', ?_⟩
      unfold applyAll
      rw [applyDefine_eq, ho]
      exact hm'

theorem silence_eq (new : DefineSet) (i : LogDefine) (m : LoggerManager) :
    silence new i m =
      if new.find i = none then m.assign i.name (some ⟨.NOTSET, []⟩) else m := by
  unfold silence
  cases new.find i with
  | none =>
      obtain ⟨lg, hlg⟩ := m.getLogger_some i.name
      dsimp only
      rw [LoggerManager.modify_eq hlg, LoggerManager.modify_eq (LoggerManager.assign_self _ _ _),
        LoggerManager.assign_assign, LoggerManager.getLogger_assign]
      rfl
  | some it => rfl

/-- The second loop: the loggers that are gone are silent, and the others stay. -/
theorem silenceAll_loggers (new : DefineSet) (l : List LogDefine) (m : LoggerManager)
    (name : String) :
    ((∃ i ∈ l, i.name = name ∧ new.find i = none) →
      (silenceAll new l m).loggers name = some ⟨.NOTSET, []⟩) ∧
    ((∀ i ∈ l, i.name = name → new.find i ≠ none) →
      (silenceAll new l m).loggers name = m.loggers name) := by
  induction l generalizing m with
  | nil => exact ⟨fun ⟨i, hi, _⟩ => absurd hi List.not_mem_nil, fun _ => rfl⟩
  | cons i rest ih =>
      obtain ⟨hgone, hstay⟩ := ih (silence new i m)
      show (_ → (silenceAll new rest (silence new i m)).loggers name = _) ∧
        (_ → (silenceAll new rest (silence new i m)).loggers name = _)
      refine ⟨fun ⟨j, hj, hname, hfind⟩ => ?_, fun hall => ?_⟩
      · by_cases hlater : ∃ j ∈ rest, j.name = name ∧ new.find j = none
        · exact hgone hlater
        · rcases List.mem_cons.mp hj with rfl | hj
          · rw [hstay fun k hk hkn hkf => hlater ⟨k, hk, hkn, hkf⟩, silence_eq, if_pos hfind,
              ← hname, LoggerManager.assign_self]
          · exact absurd ⟨j, hj, hname, hfind⟩ hlater
      · rw [hstay fun j hj => hall j (List.mem_cons_of_mem i hj), silence_eq]
        split
        · rename_i hfind
          refine LoggerManager.assign_of_ne m _ fun hname => ?_
          exact hall i List.mem_cons_self hname.symm hfind
        · rfl

/-! ## The call -/

theorem mapM_isSome_iff {l : List LogAppenderDefine} :
    (l.mapM LogAppenderDefine.appender).isSome = true ↔ ∀ a ∈ l, a.type = 1 ∨ a.type = 2 := by
  induction l with
  | nil => simp
  | cons a rest ih =>
      have happ : a.appender.isSome = true ↔ a.type = 1 ∨ a.type = 2 := by
        unfold LogAppenderDefine.appender
        by_cases h1 : a.type = 1
        · simp [h1]
        · by_cases h2 : a.type = 2
          · simp [h2]
          · simp [h1, h2]
      rw [List.forall_mem_cons, ← happ, ← ih, List.mapM_cons]
      cases a.appender with
      | none => simp
      | some x => cases rest.mapM LogAppenderDefine.appender <;> simp

/-- A logger can be made exactly if its appenders are of the two types. -/
theorem logger_isSome_iff {d : LogDefine} :
    d.logger.isSome = true ↔ ∀ a ∈ d.appenders, a.type = 1 ∨ a.type = 2 := by
  rw [← mapM_isSome_iff]
  simp [LogDefine.logger]

theorem logger_level {d : LogDefine} {l : Logger} (h : d.logger = some l) : l.level = d.level := by
  unfold LogDefine.logger at h
  rw [Option.map_eq_some_iff] at h
  obtain ⟨apps, -, rfl⟩ := h
  rfl

/-- A logger that is as another definition of its name says is as this one says exactly if they
describe the same logger. -/
theorem configured_iff {m : LoggerManager} {d d₀ : LogDefine} (h : Configured m d₀)
    (hname : d₀.name = d.name) : Configured m d ↔ d.logger = d₀.logger := by
  obtain ⟨l₀, hl₀, hm₀⟩ := h
  rw [hname] at hm₀
  constructor
  · rintro ⟨l, hl, hm⟩
    rw [hm₀] at hm
    rw [hl, hl₀, hm]
  · intro heq
    exact ⟨l₀, heq.trans hl₀, hm₀⟩

/-- An element of one list has a partner in the other. -/
theorem exists_partner {α β : Type} {R : α → β → Prop} {l : List α} {l' : List β}
    (h : List.Forall₂ R l l') {a : α} (ha : a ∈ l) : ∃ b ∈ l', R a b := by
  induction h with
  | nil => cases ha
  | cons hab _ ih =>
      rcases List.mem_cons.mp ha with rfl | ha
      · exact ⟨_, List.mem_cons_self, hab⟩
      · obtain ⟨b, hb, hr⟩ := ih ha
        exact ⟨b, List.mem_cons_of_mem _ hb, hr⟩

section Call

variable {old new : DefineSet} {m : LoggerManager}

/-- `setValue` on sets that compare equal returns at once. -/
theorem converges_iff_of_beq (hm : ∀ d ∈ old.defines, Configured m d)
    (heq : (new == old) = true) : Converges old new m ↔ Settled old new := by
  have hall := DefineSet.forall₂_of_beq heq
  have hset : (logVar false old).setValue new m = some (logVar false old, m) := by
    unfold ConfigVar.setValue
    exact if_pos heq
  -- every name of one set is a name of the other
  have hold : ∀ d ∈ new.defines, ∃ d₀ ∈ old.defines, d₀.name = d.name := by
    intro d hd
    obtain ⟨d₀, hmem, hname, -⟩ := exists_partner hall hd
    exact ⟨d₀, hmem, hname.symm⟩
  have hnew : ∀ d ∈ old.defines, new.find d ≠ none := by
    intro d hd hnone
    obtain ⟨d', hmem, hname, -⟩ := exists_partner hall.flip hd
    exact DefineSet.find_eq_none.mp hnone d' hmem hname
  have hlocal : ∀ d ∈ new.defines, Configured m d ↔ d.SettledIn old := by
    intro d hd
    obtain ⟨d₀, hmem, hname⟩ := hold d hd
    unfold LogDefine.SettledIn
    rw [DefineSet.find_eq_some.mpr ⟨hmem, hname⟩]
    exact configured_iff (hm d₀ hmem) hname
  constructor
  · rintro ⟨c, m', hs, hconf, -⟩
    rw [hset] at hs
    cases hs
    exact fun d hd => (hlocal d hd).mp (hconf d hd)
  · intro hsettled
    exact ⟨_, m, hset, fun d hd => (hlocal d hd).mpr (hsettled d hd),
      fun d hd hnone => absurd hnone (hnew d hd)⟩

/-- The listener runs when the sets do not compare equal. -/
theorem setValue_log (hne : ¬ (new == old) = true) :
    (logVar false old).setValue new m = (applyAll false old new.defines m).map fun m =>
      (logVar false new, silenceAll new old.defines m) := by
  unfold ConfigVar.setValue
  rw [if_neg (show ¬ (new == (logVar false old).val) = true from hne)]
  show Option.map _ ((onLogChange false old old new m).bind some) = _
  unfold onLogChange
  cases applyAll false old new.defines m with
  | none => rfl
  | some m' => rfl

/-- A definition of the new set is in effect after both loops as it was after the first. -/
theorem silenceAll_new {d : LogDefine} (hd : d ∈ new.defines) (m₁ : LoggerManager) :
    (silenceAll new old.defines m₁).loggers d.name = m₁.loggers d.name := by
  refine (silenceAll_loggers new old.defines m₁ d.name).2 fun i _ hname hnone => ?_
  exact DefineSet.find_eq_none.mp hnone d hd hname.symm

/-- The effect of a definition that is settled, and only of such a one, is its own logger. -/
theorem effect_iff (hm : ∀ d ∈ old.defines, Configured m d) (d : LogDefine) :
    (∃ o, effect old d = some o ∧
      ∃ l, d.logger = some l ∧ (m.assign d.name o).loggers d.name = some l) ↔
    d.SettledIn old := by
  unfold effect LogDefine.SettledIn
  cases hfind : old.find d with
  | none =>
      dsimp only
      rw [← logger_isSome_iff, Option.isSome_iff_exists]
      constructor
      · rintro ⟨o, -, l, hl, -⟩
        exact ⟨l, hl⟩
      · rintro ⟨l, hl⟩
        exact ⟨some l, by rw [hl]; rfl, l, hl, by simp⟩
  | some d₀ =>
      dsimp only
      obtain ⟨hmem, hname⟩ := DefineSet.find_eq_some.mp hfind
      have hconf := configured_iff (hm d₀ hmem) hname
      constructor
      · rintro ⟨o, ho, l, hl, hlog⟩
        split at ho
        · cases ho
          exact hconf.mp ⟨l, hl, hlog⟩
        · cases ho
      · intro heq
        obtain ⟨l, hl, hlog⟩ := hconf.mpr heq
        have hlevel : d.level = d₀.level := by
          rw [← logger_level hl, logger_level (heq ▸ hl)]
        rw [if_pos (LogDefine.eq_iff.mpr ⟨hname.symm, hlevel⟩)]
        exact ⟨none, rfl, l, hl, hlog⟩

theorem converges_iff_of_not_beq (hm : ∀ d ∈ old.defines, Configured m d)
    (hne : ¬ (new == old) = true) : Converges old new m ↔ Settled old new := by
  unfold Settled
  simp only [← effect_iff hm]
  constructor
  · rintro ⟨c, m', hs, hconf, -⟩ d hd
    rw [setValue_log hne, Option.map_eq_some_iff] at hs
    obtain ⟨m₁, hm₁, heq⟩ := hs
    cases heq
    obtain ⟨o, ho, hlog⟩ := (applyAll_some new.names_nodup hm₁).1 d hd
    obtain ⟨l, hl, hl'⟩ := hconf d hd
    rw [silenceAll_new hd, hlog] at hl'
    exact ⟨o, ho, l, hl, hl'⟩
  · intro heffect
    have hsome : ∀ d ∈ new.defines, (effect old d).isSome = true := by
      intro d hd
      obtain ⟨o, ho, -⟩ := heffect d hd
      rw [ho]
      rfl
    obtain ⟨m₁, hm₁⟩ := applyAll_isSome hsome m
    refine ⟨_, _, by rw [setValue_log hne, hm₁]; rfl, fun d hd => ?_, fun d hd hnone => ?_⟩
    · obtain ⟨o, ho, l, hl, hlog⟩ := heffect d hd
      obtain ⟨o', ho', hlog'⟩ := (applyAll_some new.names_nodup hm₁).1 d hd
      rw [ho] at ho'
      cases ho'
      exact ⟨l, hl, by rw [silenceAll_new hd, hlog', hlog]⟩
    · exact (silenceAll_loggers new old.defines m₁ d.name).1 ⟨d, hd, rfl, hnone⟩

end Call

/-- For all sets of definitions, from loggers that are as the old set says: the call returns with
every logger of the new set as it says and those that are gone silent, exactly if no logger that
stays is described differently and the new ones have appenders of the two types. -/
theorem loggers_converge (old new : DefineSet) (m : LoggerManager)
    (hm : ∀ d ∈ old.defines, Configured m d) : Converges old new m ↔ Settled old new := by
  by_cases heq : (new == old) = true
  · exact converges_iff_of_beq hm heq
  · exact converges_iff_of_not_beq hm heq

/-- A set of one definition. -/
def DefineSet.single (d : LogDefine) : DefineSet := ⟨[d], List.pairwise_singleton _ _⟩

/-- The logger `http` is replaced by `db`, which writes to a file. -/
theorem loggers_converge_replaced :
    Converges (.single ⟨"http", .INFO, [⟨2, "", ""⟩]⟩)
      (.single ⟨"db", .DEBUG, [⟨1, "%m%n", "db.log"⟩]⟩)
      ⟨fun name => if name = "http" then some ⟨.INFO, [.Stdout defaultPattern]⟩ else none⟩ := by
  refine (loggers_converge _ _ _ ?_).mpr ?_
  · intro d hd
    obtain rfl := List.mem_singleton.mp hd
    exact ⟨⟨.INFO, [.Stdout defaultPattern]⟩, by decide, rfl⟩
  · intro d hd
    obtain rfl := List.mem_singleton.mp hd
    show ∀ a ∈ [(⟨1, "%m%n", "db.log"⟩ : LogAppenderDefine)], a.type = 1 ∨ a.type = 2
    decide

/-- The level of `http` is changed: the listener uses a null logger. A new file for its appender
instead changes nothing. -/
theorem loggers_diverge :
    let old := DefineSet.single ⟨"http", .INFO, [⟨1, "", "a.log"⟩]⟩
    let m : LoggerManager :=
      ⟨fun name => if name = "http" then some ⟨.INFO, [.File "a.log" defaultPattern]⟩ else none⟩
    (∀ d ∈ old.defines, Configured m d) ∧
    (logVar false old).setValue (.single ⟨"http", .DEBUG, [⟨1, "", "a.log"⟩]⟩) m = none ∧
    ¬ Converges old (.single ⟨"http", .DEBUG, [⟨1, "", "a.log"⟩]⟩) m ∧
    ¬ Converges old (.single ⟨"http", .INFO, [⟨1, "", "b.log"⟩]⟩) m := by
  refine ⟨fun d hd => ?_, rfl, ?_, ?_⟩
  · obtain rfl := List.mem_singleton.mp hd
    exact ⟨⟨.INFO, [.File "a.log" defaultPattern]⟩, by decide, rfl⟩
  · rintro ⟨c, m', hs, -⟩
    cases hs
  · rintro ⟨c, m', hs, hconf, -⟩
    obtain ⟨l, hl, hlog⟩ := hconf _ (List.mem_singleton_self _)
    cases hs
    cases hlog
    revert hl
    decide

end Gxh.Log
