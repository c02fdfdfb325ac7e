import Sylar.Config.Var
import Sylar.Log.Define
import Sylar.Log.Logger

/-! The listener of `LogIniter`: it applies a change of the `logs` variable to the
loggers. `daemon` is whether `Env` has the argument `d`. -/
namespace Sylar

open Library

/-- What the listener makes of `type`: an appender, none on purpose, or none, with
the null pointer used right after. -/
inductive Made where
  | appender (sink : Sink)
  | skipped
  | null

namespace LogAppenderDefine

def make (daemon : Bool) (a : LogAppenderDefine) : Made :=
  if a.type = 1 then .appender (.file a.file)
  else if a.type = 2 then if daemon then .skipped else .appender .stdout
  else .null

/-- The appender before it is added: its level, and its own formatter if valid. -/
def prepare (sink : Sink) (a : LogAppenderDefine) : LogAppender :=
  let ap := (LogAppender.create sink).setLevel a.level
  if a.formatter = [] then ap
  else
    let fmt := LogFormatter.create a.formatter
    if fmt.isError then ap else ap.setFormatter (some fmt)

end LogAppenderDefine

/-- The loop over the appenders of a definition; `none` is a null dereference. -/
def addDefined (daemon : Bool) :
    List LogAppenderDefine → Logger → List LogAppender → Option (Logger × List LogAppender)
  | [], logger, heap => some (logger, heap)
  | a :: rest, logger, heap =>
    match a.make daemon with
    | .null => none
    | .skipped => addDefined daemon rest logger heap
    | .appender sink =>
      let (logger, heap) := logger.addAppender heap.length (heap ++ [a.prepare sink])
      addDefined daemon rest logger heap

/-- A new or modified definition is applied to its logger. -/
def configure (daemon : Bool) (i : LogDefine) (s : Loggers) : Option Loggers :=
  let (logger, s) := s.getLogger i.name
  let logger := logger.setLevel i.level
  let (logger, heap) :=
    if i.formatter = [] then (logger, s.heap) else logger.setFormatterText i.formatter s.heap
  match addDefined daemon i.appenders logger.clearAppenders heap with
  | none => none
  | some (logger, heap) => some (s.write logger heap)

/-- A definition that is gone: its logger stays, at level 0 and without appenders. -/
def disable (i : LogDefine) (s : Loggers) : Loggers :=
  let (logger, s) := s.getLogger i.name
  s.write (logger.setLevel .unknow).clearAppenders s.heap

/-- The test of the first loop: the logger is new, or unequal to its old definition. -/
def changed (old : LogDefines) (i : LogDefine) : Bool :=
  match old.find? i.name with
  | none => true
  | some it => !(i == it)

def applyNew (daemon : Bool) (old : LogDefines) : List LogDefine → Loggers → Option Loggers
  | [], s => some s
  | i :: rest, s =>
    if changed old i then
      match configure daemon i s with
      | none => none
      | some s => applyNew daemon old rest s
    else applyNew daemon old rest s

def removeOld (new : LogDefines) : List LogDefine → Loggers → Loggers
  | [], s => s
  | i :: rest, s =>
    match new.find? i.name with
    | none => removeOld new rest (disable i s)
    | some _ => removeOld new rest s

/-- Both loops of the listener. -/
def reconfigure (daemon : Bool) (old new : LogDefines) (s : Loggers) : Option Loggers :=
  match applyNew daemon old new.entries s with
  | none => none
  | some s => some (removeOld new old.entries s)

/-- What both ways of treating one definition keep, the listener keeps. -/
theorem reconfigure_keeps {daemon : Bool} {property : Loggers → Prop}
    (configured : ∀ i s next, property s → configure daemon i s = some next → property next)
    (disabled : ∀ i s, property s → property (disable i s)) {old new : LogDefines} {s next : Loggers}
    (before : property s) (done : reconfigure daemon old new s = some next) : property next := by
  have applied : ∀ (ds : List LogDefine) (s next : Loggers), property s →
      applyNew daemon old ds s = some next → property next := by
    intro ds
    induction ds with
    | nil =>
      intro s next before done
      cases done
      exact before
    | cons d rest ih =>
      intro s next before done
      rw [applyNew] at done
      split at done
      · split at done
        · cases done
        · rename_i middle rebuilt
          exact ih middle next (configured d s middle before rebuilt) done
      · exact ih s next before done
  have removed : ∀ (ds : List LogDefine) (s : Loggers), property s → property (removeOld new ds s) := by
    intro ds
    induction ds with
    | nil =>
      intro s before
      exact before
    | cons d rest ih =>
      intro s before
      rw [removeOld]
      split
      · exact ih (disable d s) (disabled d s before)
      · exact ih s before
  unfold reconfigure at done
  split at done
  · cases done
  · rename_i middle rebuilt
    cases done
    exact removed old.entries middle (applied new.entries s middle before rebuilt)

/-- The appenders of a definition that are made: the console ones only outside the daemon. -/
def LogDefine.kept (daemon : Bool) (i : LogDefine) : List LogAppenderDefine :=
  i.appenders.filter fun a => ¬ (a.type = 2 ∧ daemon)

/-- All appenders of a definition have one of the two types. -/
def LogDefine.Typed (i : LogDefine) : Prop := ∀ a ∈ i.appenders, a.type = 1 ∨ a.type = 2

/-- The formatter of a text that is non-empty and parses, else another one. -/
def formatterOr (text : Text) (other : Option LogFormatter) : Option LogFormatter :=
  if text ≠ [] ∧ (LogFormatter.create text).isError = false then some (LogFormatter.create text)
  else other

/-- The attached appender that a definition describes. -/
def LogAppenderDefine.defined (inherited : Option LogFormatter) (a : LogAppenderDefine) : LogAppender :=
  { sink := if a.type = 1 then .file a.file else .stdout
    level := a.level
    hasFormatter := decide (a.formatter ≠ [] ∧ (LogFormatter.create a.formatter).isError = false)
    formatter := formatterOr a.formatter inherited }

/-- An added appender keeps its own formatter or inherits the logger's. -/
theorem adopt_prepare (logger : Logger) (sink : Sink) (a : LogAppenderDefine)
    (same : sink = if a.type = 1 then .file a.file else .stdout) :
    logger.adopt (a.prepare sink) = a.defined logger.formatter := by
  subst same
  by_cases empty : a.formatter = []
  · simp [LogAppenderDefine.prepare, LogAppenderDefine.defined, formatterOr, Logger.adopt, empty,
      LogAppender.getFormatter, LogAppender.create, LogAppender.setLevel]
  · cases error : (LogFormatter.create a.formatter).isError with
    | true | false =>
      simp [LogAppenderDefine.prepare, LogAppenderDefine.defined, formatterOr, Logger.adopt, empty,
        error, LogAppender.getFormatter, LogAppender.create, LogAppender.setLevel,
        LogAppender.setFormatter]

theorem make_typed {daemon : Bool} {a : LogAppenderDefine} (typed : a.type = 1 ∨ a.type = 2) :
    a.make daemon = if a.type = 2 ∧ daemon then .skipped
      else .appender (if a.type = 1 then .file a.file else .stdout) := by
  rcases typed with one | two
  · simp [LogAppenderDefine.make, one]
  · cases daemon <;> simp [LogAppenderDefine.make, two]

theorem make_untyped {daemon : Bool} {a : LogAppenderDefine} (untyped : ¬ (a.type = 1 ∨ a.type = 2)) :
    a.make daemon = .null := by
  rw [not_or] at untyped
  simp [LogAppenderDefine.make, untyped]

/-- The loop allocates the kept appenders in order and attaches them. -/
theorem addDefined_typed (daemon : Bool) (as : List LogAppenderDefine)
    (typed : ∀ a ∈ as, a.type = 1 ∨ a.type = 2) (logger : Logger) (heap : List LogAppender) :
    addDefined daemon as logger heap =
      let kept := as.filter fun a => ¬ (a.type = 2 ∧ daemon)
      some ({ logger with appenders := logger.appenders ++ List.range' heap.length kept.length },
        heap ++ kept.map (LogAppenderDefine.defined logger.formatter)) := by
  induction as generalizing logger heap with
  | nil => simp [addDefined]
  | cons a rest ih =>
    obtain ⟨typedFirst, typedRest⟩ := List.forall_mem_cons.mp typed
    rw [addDefined, make_typed typedFirst]
    by_cases skip : a.type = 2 ∧ daemon = true
    · rw [if_pos skip]
      simpa [skip] using ih typedRest logger heap
    · rw [if_neg skip]
      have first : (a :: rest).filter (fun a => ¬ (a.type = 2 ∧ daemon)) =
          a :: rest.filter (fun a => ¬ (a.type = 2 ∧ daemon)) :=
        List.filter_cons_of_pos (decide_eq_true skip)
      simp only [Logger.addAppender, modify_allocated]
      rw [ih typedRest, first, adopt_prepare logger _ a rfl]
      simp [List.range'_succ]

/-- With an appender of another type the loop dereferences a null pointer. -/
theorem addDefined_some {daemon : Bool} {as : List LogAppenderDefine} {logger : Logger}
    {heap : List LogAppender} {result : Logger × List LogAppender}
    (done : addDefined daemon as logger heap = some result) : ∀ a ∈ as, a.type = 1 ∨ a.type = 2 := by
  induction as generalizing logger heap with
  | nil =>
    intro a member
    cases member
  | cons a rest ih =>
    by_cases typed : a.type = 1 ∨ a.type = 2
    · refine List.forall_mem_cons.mpr ⟨typed, ?_⟩
      rw [addDefined, make_typed typed] at done
      by_cases skip : a.type = 2 ∧ daemon = true
      · rw [if_pos skip] at done
        exact ih done
      · rw [if_neg skip] at done
        exact ih done
    · rw [addDefined, make_untyped typed] at done
      cases done

/-- `next` differs from `s` only in the loggers touched and in the appenders that were
attached to them; the touched loggers have only appenders made since, and their `m_root`. -/
structure Frame (touched : Text → Prop) (s next : Loggers) : Prop where
  grows : s.heap.length ≤ next.heap.length
  others : ∀ name, ¬ touched name → next.table.find? name = s.table.find? name
  rebuilt : ∀ name, touched name → ∃ logger, next.table.find? name = some logger ∧
    logger.root = (s.getLogger name).1.root ∧
    ∀ p ∈ logger.appenders, s.heap.length ≤ p ∧ p < next.heap.length
  appenders : ∀ p < s.heap.length,
    (∀ name logger, touched name → s.table.find? name = some logger → p ∉ logger.appenders) →
      next.heap[p]? = s.heap[p]?

namespace Frame

variable {touched later : Text → Prop} {s middle next : Loggers}

theorem refl (untouched : ∀ name, ¬ touched name) (s : Loggers) : Frame touched s s where
  grows := Nat.le_refl _
  others _ _ := rfl
  rebuilt name inside := absurd inside (untouched name)
  appenders _ _ _ := rfl

/-- A touched logger of the middle state has no appender of the first. -/
theorem trans (first : Frame touched s middle) (second : Frame later middle next) :
    Frame (fun name => touched name ∨ later name) s next where
  grows := Nat.le_trans first.grows second.grows
  others name outside := by
    obtain ⟨before, after⟩ := not_or.mp outside
    rw [second.others name after, first.others name before]
  rebuilt name inside := by
    by_cases after : later name
    · obtain ⟨logger, found, root, bounds⟩ := second.rebuilt name after
      refine ⟨logger, found, root.trans ?_, fun p member =>
        ⟨Nat.le_trans first.grows (bounds p member).1, (bounds p member).2⟩⟩
      by_cases before : touched name
      · obtain ⟨between, same, root, _⟩ := first.rebuilt name before
        rw [Loggers.getLogger_found same, root]
      · rw [Loggers.getLogger_congr (first.others name before)]
    · obtain ⟨logger, found, root, bounds⟩ := first.rebuilt name (inside.resolve_right after)
      refine ⟨logger, (second.others name after).trans found, root, fun p member => ?_⟩
      exact ⟨(bounds p member).1, Nat.lt_of_lt_of_le (bounds p member).2 second.grows⟩
  appenders p old free := by
    have kept : middle.heap[p]? = s.heap[p]? :=
      first.appenders p old fun name logger inside => free name logger (.inl inside)
    rw [← kept]
    apply second.appenders p (Nat.lt_of_lt_of_le old first.grows)
    intro name logger after found member
    by_cases before : touched name
    · obtain ⟨rebuilt, same, _, bounds⟩ := first.rebuilt name before
      cases found.symm.trans same
      exact Nat.not_le_of_lt old (bounds p member).1
    · exact free name logger (.inr after) ((first.others name before).symm.trans found) member

theorem congr (frame : Frame touched s next) (same : ∀ name, later name ↔ touched name) :
    Frame later s next := by
  have equal : later = touched := funext fun name => propext (same name)
  rw [equal]
  exact frame

theorem sound (frame : Frame touched s next) (sound : s.Sound) : next.Sound where
  attached name logger found p member := by
    by_cases inside : touched name
    · obtain ⟨rebuilt, same, _, bounds⟩ := frame.rebuilt name inside
      cases found.symm.trans same
      exact (bounds p member).2
    · have before := (frame.others name inside).symm.trans found
      exact Nat.lt_of_lt_of_le (sound.attached name logger before p member) frame.grows
  rooted := by
    obtain ⟨root, found, top⟩ := sound.rooted
    by_cases inside : touched Loggers.rootName
    · obtain ⟨rebuilt, there, same, _⟩ := frame.rebuilt Loggers.rootName inside
      rw [Loggers.getLogger_found found, top] at same
      exact ⟨rebuilt, there, same⟩
    · exact ⟨root, (frame.others Loggers.rootName inside).trans found, top⟩

end Frame

/-- The logger of a definition has its level, its formatter if valid and else the one
it had, and an appender made anew for each kept appender of the definition. -/
def Configured (daemon : Bool) (before after : Loggers) (i : LogDefine) : Prop :=
  ∃ logger, after.table.find? i.name = some logger ∧ logger.level = i.level ∧
    logger.formatter = formatterOr i.formatter (before.getLogger i.name).1.formatter ∧
    (logger.appenders.map fun p => after.heap[p]?) =
      ((i.kept daemon).map fun a => some (a.defined logger.formatter)) ∧
    ∀ p ∈ logger.appenders, before.heap.length ≤ p ∧ p < after.heap.length

/-- A logger at level 0 without appenders, its formatter kept. -/
def Disabled (before after : Loggers) (i : LogDefine) : Prop :=
  ∃ logger, after.table.find? i.name = some logger ∧ logger.level.toNat = 0 ∧
    logger.appenders = [] ∧ logger.formatter = (before.getLogger i.name).1.formatter

/-- An appender without a formatter of its own gets another one. -/
def LogAppender.offered (change : Option LogFormatter → Option LogFormatter) (appender : LogAppender) :
    LogAppender :=
  if appender.hasFormatter then appender else { appender with formatter := change appender.formatter }

theorem offered_id : LogAppender.offered (fun formatter => formatter) = id := by
  funext appender
  simp [LogAppender.offered]

theorem offered_offered (first second : Option LogFormatter → Option LogFormatter) (appender : LogAppender) :
    (appender.offered first).offered second = appender.offered fun formatter => second (first formatter) := by
  cases own : appender.hasFormatter with
  | true | false => simp [LogAppender.offered, own]

/-- A logger passes its formatter on in the same way. -/
theorem inherit_offered (val : Option LogFormatter) : Logger.inherit val = LogAppender.offered fun _ => val := rfl

theorem inherit_once (val : Option LogFormatter) (appender : LogAppender) :
    Logger.inherit val (Logger.inherit val appender) = Logger.inherit val appender := by
  rw [inherit_offered, offered_offered]

/-- `setFormatter` with the text of a definition: the logger's formatter, and what the
appenders get, those that are attached. -/
theorem setFormatterText_spec (text : Text) (logger : Logger) (heap : List LogAppender) :
    ∃ after, (if text = [] then (logger, heap) else logger.setFormatterText text heap) =
        ({ logger with formatter := formatterOr text logger.formatter }, after) ∧
      after.length = heap.length ∧
      ∀ p, after[p]? = heap[p]?.map (LogAppender.offered fun formatter =>
        if p ∈ logger.appenders then formatterOr text formatter else formatter) := by
  -- no formatter is given if the text is empty or has an error
  have kept (invalid : text = [] ∨ (LogFormatter.create text).isError = true) (other : Option LogFormatter) :
      formatterOr text other = other := by
    rcases invalid with empty | error
    · simp [formatterOr, empty]
    · simp [formatterOr, error]
  have same (invalid : text = [] ∨ (LogFormatter.create text).isError = true) (p : Nat) :
      heap[p]? = heap[p]?.map (LogAppender.offered fun formatter =>
        if p ∈ logger.appenders then formatterOr text formatter else formatter) := by
    simp [kept invalid, offered_id]
  by_cases empty : text = []
  · exact ⟨heap, by simp [empty, formatterOr], rfl, same (.inl empty)⟩
  · cases error : (LogFormatter.create text).isError with
    | true => exact ⟨heap, by simp [empty, error, formatterOr, Logger.setFormatterText], rfl, same (.inr error)⟩
    | false =>
      have given (other : Option LogFormatter) : formatterOr text other = some (LogFormatter.create text) := by
        simp [formatterOr, empty, error]
      refine ⟨modifyAll (Logger.inherit (some (LogFormatter.create text))) logger.appenders heap, ?_,
        length_modifyAll _ _ heap, fun p => ?_⟩
      · simp [empty, error, formatterOr, Logger.setFormatterText, Logger.setFormatter]
      · by_cases member : p ∈ logger.appenders
        · rw [getElem?_modifyAll_mem (inherit_once _) member]
          simp [member, given, inherit_offered]
        · rw [getElem?_modifyAll _ member heap]
          simp [member, offered_id]

theorem map_getElem?_range' (front back : List α) :
    ((List.range' front.length back.length).map fun p => (front ++ back)[p]?) = back.map some := by
  apply List.ext_getElem
  · simp
  · intro position inside _
    simp at inside
    simp [inside]

theorem configure_typed (daemon : Bool) (i : LogDefine) (s : Loggers) (typed : i.Typed) :
    ∃ next, configure daemon i s = some next ∧ Frame (· = i.name) s next ∧ Configured daemon s next i := by
  set logger := (s.getLogger i.name).1 with opened
  have sameName : logger.name = i.name := s.getLogger_name i.name
  have heap : (s.getLogger i.name).2.heap = s.heap := s.getLogger_heap i.name
  obtain ⟨front, formatted, length, offered⟩ :=
    setFormatterText_spec i.formatter (logger.setLevel i.level) s.heap
  set final : Logger := { logger with
    level := i.level
    formatter := formatterOr i.formatter logger.formatter
    appenders := List.range' front.length (i.kept daemon).length }
  set made := (i.kept daemon).map (LogAppenderDefine.defined final.formatter)
  set next := (s.getLogger i.name).2.write final (front ++ made)
  have done : configure daemon i s = some next := by
    simp only [configure, ← opened, heap, formatted]
    rw [addDefined_typed daemon i.appenders typed]
    rfl
  have bounds : ∀ p ∈ final.appenders, s.heap.length ≤ p ∧ p < next.heap.length := by
    intro p member
    have range := List.mem_range'_1.mp member
    simp only [next, Loggers.write, List.length_append, made, List.length_map]
    omega
  have found : next.table.find? i.name = some final := by
    rw [← sameName]
    exact Loggers.find?_write_same final _ _
  refine ⟨next, done, ?_, final, found, rfl, rfl, ?_, bounds⟩
  · constructor
    · simp [next, Loggers.write, length]
    · intro name other
      have different : final.name ≠ name := fun same => other (same.symm.trans sameName)
      exact (Loggers.find?_write_other different _ _).trans (Loggers.getLogger_other (Ne.symm other) s)
    · rintro name rfl
      exact ⟨final, found, rfl, bounds⟩
    · intro p old free
      have apart : p ∉ logger.appenders := by
        rcases s.getLogger_cases i.name with present | ⟨_, empty⟩
        · exact free i.name logger rfl present
        · rw [opened, empty]
          exact List.not_mem_nil
      have same := offered p
      simp only [Logger.setLevel, apart, if_false, offered_id, Option.map_id, id_eq] at same
      rw [← same]
      exact List.getElem?_append_left (by omega)
  · have aligned := map_getElem?_range' front made
    simp only [made, List.length_map, List.map_map] at aligned
    exact aligned

theorem configure_some {daemon : Bool} {i : LogDefine} {s next : Loggers}
    (done : configure daemon i s = some next) : i.Typed := by
  simp only [configure] at done
  split at done
  · cases done
  · rename_i added
    exact addDefined_some added

/-- What the attached appenders keep of a formatter that is given, others do not get. -/
theorem configure_heap {daemon : Bool} {i : LogDefine} {s next : Loggers} (done : configure daemon i s = some next)
    {p : Nat} (before : p < s.heap.length) :
    next.heap[p]? = s.heap[p]?.map (LogAppender.offered fun formatter =>
      if p ∈ (s.getLogger i.name).1.appenders then formatterOr i.formatter formatter else formatter) := by
  have typed := configure_some done
  obtain ⟨front, formatted, length, offered⟩ :=
    setFormatterText_spec i.formatter ((s.getLogger i.name).1.setLevel i.level) s.heap
  simp only [configure, s.getLogger_heap i.name, formatted] at done
  rw [addDefined_typed daemon i.appenders typed] at done
  cases done
  rw [← length] at before
  exact (List.getElem?_append_left before).trans (offered p)

/-- A definition is applied by a call on its logger. -/
theorem configure_onName {daemon : Bool} {i : LogDefine} {s next : Loggers}
    (done : configure daemon i s = some next) : ∃ call, KeepsName call ∧ next = s.onName i.name call := by
  have typed := configure_some done
  refine ⟨fun logger heap =>
    let (logger, heap) := if i.formatter = [] then (logger.setLevel i.level, heap)
      else (logger.setLevel i.level).setFormatterText i.formatter heap
    (addDefined daemon i.appenders logger.clearAppenders heap).getD (logger, heap), ?_, ?_⟩
  · intro logger heap
    obtain ⟨after, formatted, _⟩ := setFormatterText_spec i.formatter (logger.setLevel i.level) heap
    simp only [formatted]
    rw [addDefined_typed daemon i.appenders typed]
    exact ⟨rfl, rfl⟩
  · obtain ⟨after, formatted, _⟩ := setFormatterText_spec i.formatter
      ((s.getLogger i.name).1.setLevel i.level) (s.getLogger i.name).2.heap
    simp only [configure, formatted] at done
    simp only [Loggers.onName, formatted]
    rw [addDefined_typed daemon i.appenders typed] at done ⊢
    exact (Option.some.inj done).symm

/-- Later work on other loggers leaves a configured logger as it is. -/
theorem Configured.frame {daemon : Bool} {before middle next : Loggers} {i : LogDefine}
    {touched : Text → Prop} (configured : Configured daemon before middle i)
    (frame : Frame touched middle next) (apart : ¬ touched i.name)
    (older : ∀ name logger, touched name → middle.table.find? name = some logger →
      ∀ p ∈ logger.appenders, p < before.heap.length) : Configured daemon before next i := by
  obtain ⟨logger, found, level, formatter, appenders, bounds⟩ := configured
  refine ⟨logger, (frame.others i.name apart).trans found, level, formatter, ?_, ?_⟩
  · rw [← appenders]
    apply List.map_congr_left
    intro p member
    obtain ⟨fresh, inside⟩ := bounds p member
    apply frame.appenders p inside
    intro name other isTouched present attached
    exact Nat.not_lt_of_le fresh (older name other isTouched present p attached)
  · intro p member
    exact ⟨(bounds p member).1, Nat.lt_of_lt_of_le (bounds p member).2 frame.grows⟩

/-- A configured logger seen from an earlier state with the same logger. -/
theorem Configured.earlier {daemon : Bool} {before middle next : Loggers} {i : LogDefine}
    (configured : Configured daemon middle next i) (grows : before.heap.length ≤ middle.heap.length)
    (same : middle.table.find? i.name = before.table.find? i.name) :
    Configured daemon before next i := by
  obtain ⟨logger, found, level, formatter, appenders, bounds⟩ := configured
  rw [Loggers.getLogger_congr same] at formatter
  exact ⟨logger, found, level, formatter, appenders, fun p member =>
    ⟨Nat.le_trans grows (bounds p member).1, (bounds p member).2⟩⟩

/-- The names of the definitions that a loop acts on. -/
def Named (select : LogDefine → Prop) (ds : List LogDefine) (name : Text) : Prop :=
  ∃ i ∈ ds, select i ∧ i.name = name

theorem named_cons {select : LogDefine → Prop} {d : LogDefine} (selected : select d)
    (rest : List LogDefine) (name : Text) :
    Named select (d :: rest) name ↔ name = d.name ∨ Named select rest name := by
  simp [Named, selected, eq_comm (a := d.name)]

theorem named_skip {select : LogDefine → Prop} {d : LogDefine} (skipped : ¬ select d)
    (rest : List LogDefine) (name : Text) :
    Named select (d :: rest) name ↔ Named select rest name := by
  simp [Named, skipped]

/-- The first loop configures the loggers of the changed definitions and no others. -/
theorem applyNew_typed (daemon : Bool) (old : LogDefines) (ds : List LogDefine) (s : Loggers)
    (sound : s.Sound) (distinct : (ds.map LogDefine.name).Nodup)
    (typed : ∀ i ∈ ds, changed old i = true → i.Typed) :
    ∃ next, applyNew daemon old ds s = some next ∧
      Frame (Named (fun i => changed old i = true) ds) s next ∧
      ∀ i ∈ ds, changed old i = true → Configured daemon s next i := by
  induction ds generalizing s with
  | nil => exact ⟨s, rfl, Frame.refl (by simp [Named]) s, by simp⟩
  | cons d rest ih =>
    obtain ⟨fresh, distinctRest⟩ := List.nodup_cons.mp distinct
    obtain ⟨typedFirst, typedRest⟩ := List.forall_mem_cons.mp typed
    by_cases modified : changed old d = true
    · obtain ⟨middle, configured, frame, now⟩ := configure_typed daemon d s (typedFirst modified)
      obtain ⟨next, applied, later, all⟩ := ih middle (frame.sound sound) distinctRest typedRest
      refine ⟨next, by simp [applyNew, modified, configured, applied], ?_, ?_⟩
      · exact (frame.trans later).congr (named_cons modified rest)
      · refine List.forall_mem_cons.mpr ⟨?_, ?_⟩
        · intro _
          apply now.frame later
          · intro touched
            obtain ⟨i, member, _, same⟩ := touched
            exact fresh (List.mem_map.mpr ⟨i, member, same⟩)
          · intro name logger touched found p member
            obtain ⟨i, inside, _, rfl⟩ := touched
            have other : i.name ≠ d.name := fun same => fresh (List.mem_map.mpr ⟨i, inside, same⟩)
            exact sound.attached i.name logger ((frame.others _ other).symm.trans found) p member
        · intro i member isChanged
          have other : i.name ≠ d.name := fun same => fresh (List.mem_map.mpr ⟨i, member, same⟩)
          exact (all i member isChanged).earlier frame.grows (frame.others _ other)
    · obtain ⟨next, applied, frame, all⟩ := ih s sound distinctRest typedRest
      refine ⟨next, by simp [applyNew, modified, applied], ?_, ?_⟩
      · exact frame.congr (named_skip modified rest)
      · exact List.forall_mem_cons.mpr ⟨fun isChanged => absurd isChanged modified, all⟩

theorem applyNew_some {daemon : Bool} {old : LogDefines} {ds : List LogDefine} {s next : Loggers}
    (done : applyNew daemon old ds s = some next) : ∀ i ∈ ds, changed old i = true → i.Typed := by
  induction ds generalizing s with
  | nil =>
    intro i member
    cases member
  | cons d rest ih =>
    rw [applyNew] at done
    split at done
    · cases configured : configure daemon d s with
      | none =>
        rw [configured] at done
        cases done
      | some middle =>
        rw [configured] at done
        exact List.forall_mem_cons.mpr ⟨fun _ => configure_some configured, ih done⟩
    · rename_i unchanged
      exact List.forall_mem_cons.mpr ⟨fun isChanged => absurd isChanged unchanged, ih done⟩

/-- What becomes of the formatter of an appender that has none of its own: it is the last
one that the changed definitions give to the loggers that the appender is attached to. -/
def passed (old : LogDefines) (s : Loggers) (p : Nat) : List LogDefine → Option LogFormatter → Option LogFormatter
  | [], formatter => formatter
  | i :: rest, formatter =>
    passed old s p rest
      (if changed old i ∧ p ∈ (s.getLogger i.name).1.appenders then formatterOr i.formatter formatter
      else formatter)

theorem passed_congr {old : LogDefines} {s next : Loggers} {p : Nat} {ds : List LogDefine}
    (same : ∀ i ∈ ds, (next.getLogger i.name).1 = (s.getLogger i.name).1) :
    passed old next p ds = passed old s p ds := by
  induction ds with
  | nil => rfl
  | cons d rest ih =>
    obtain ⟨here, later⟩ := List.forall_mem_cons.mp same
    funext formatter
    rw [passed, passed, here, ih later]

/-- The first loop passes formatters on to the appenders that there were. -/
theorem applyNew_heap {daemon : Bool} {old : LogDefines} {ds : List LogDefine} {s next : Loggers}
    (sound : s.Sound) (distinct : (ds.map LogDefine.name).Nodup) (done : applyNew daemon old ds s = some next)
    {p : Nat} (before : p < s.heap.length) :
    next.heap[p]? = s.heap[p]?.map (LogAppender.offered (passed old s p ds)) := by
  induction ds generalizing s with
  | nil =>
    cases done
    have nothing : passed old next p [] = fun formatter => formatter := rfl
    rw [nothing, offered_id, Option.map_id, id_eq]
  | cons d rest ih =>
    obtain ⟨fresh, distinctRest⟩ := List.nodup_cons.mp distinct
    rw [applyNew] at done
    by_cases modified : changed old d = true
    · rw [if_pos modified] at done
      cases configured : configure daemon d s with
      | none =>
        rw [configured] at done
        cases done
      | some middle =>
        rw [configured] at done
        obtain ⟨middle', configured', frame, _⟩ := configure_typed daemon d s (configure_some configured)
        cases configured.symm.trans configured'
        have same : ∀ i ∈ rest, (middle.getLogger i.name).1 = (s.getLogger i.name).1 := by
          intro i member
          apply Loggers.getLogger_congr
          exact frame.others i.name fun equal => fresh (List.mem_map.mpr ⟨i, member, equal⟩)
        have later := ih (frame.sound sound) distinctRest done (Nat.lt_of_lt_of_le before frame.grows)
        rw [later, configure_heap configured before, passed_congr same, Option.map_map]
        congr 1
        funext appender
        rw [Function.comp_apply, offered_offered]
        simp only [passed, modified, true_and]
    · rw [if_neg modified] at done
      have unpassed : passed old s p (d :: rest) = passed old s p rest := by
        funext formatter
        rw [passed, if_neg fun both => modified both.1]
      rw [unpassed]
      exact ih sound distinctRest done before

theorem removeOld_heap (new : LogDefines) (ds : List LogDefine) (s : Loggers) :
    (removeOld new ds s).heap = s.heap := by
  induction ds generalizing s with
  | nil => rfl
  | cons d rest ih =>
    rw [removeOld]
    split
    · rw [ih]
      exact s.getLogger_heap d.name
    · exact ih s

theorem disable_spec (i : LogDefine) (s : Loggers) :
    Frame (· = i.name) s (disable i s) ∧ Disabled s (disable i s) i := by
  set logger := (s.getLogger i.name).1 with opened
  have sameName : logger.name = i.name := s.getLogger_name i.name
  have found : (disable i s).table.find? i.name = some (logger.setLevel .unknow).clearAppenders := by
    rw [← sameName]
    exact Loggers.find?_write_same (logger.setLevel .unknow).clearAppenders _ _
  have heap : (disable i s).heap = s.heap := s.getLogger_heap i.name
  refine ⟨?_, _, found, rfl, rfl, rfl⟩
  constructor
  · rw [heap]
  · intro name other
    have different : (logger.setLevel .unknow).clearAppenders.name ≠ name :=
      fun same => other (same.symm.trans sameName)
    exact (Loggers.find?_write_other different _ _).trans (Loggers.getLogger_other (Ne.symm other) s)
  · rintro name rfl
    exact ⟨_, found, rfl, by simp [Logger.clearAppenders]⟩
  · intro p _ _
    rw [heap]

/-- The second loop disables the loggers of the definitions that are gone. -/
theorem removeOld_spec (new : LogDefines) (ds : List LogDefine) (s : Loggers)
    (distinct : (ds.map LogDefine.name).Nodup) :
    Frame (Named (fun i => new.find? i.name = none) ds) s (removeOld new ds s) ∧
      ∀ i ∈ ds, new.find? i.name = none → Disabled s (removeOld new ds s) i := by
  induction ds generalizing s with
  | nil => exact ⟨Frame.refl (by simp [Named]) s, by simp⟩
  | cons d rest ih =>
    obtain ⟨fresh, distinctRest⟩ := List.nodup_cons.mp distinct
    have other (i : LogDefine) (member : i ∈ rest) : i.name ≠ d.name :=
      fun same => fresh (List.mem_map.mpr ⟨i, member, same⟩)
    cases gone : new.find? d.name with
    | none =>
      obtain ⟨frame, now⟩ := disable_spec d s
      obtain ⟨later, all⟩ := ih (disable d s) distinctRest
      have result : removeOld new (d :: rest) s = removeOld new rest (disable d s) := by
        simp [removeOld, gone]
      rw [result]
      refine ⟨?_, ?_⟩
      · exact (frame.trans later).congr (named_cons gone rest)
      · refine List.forall_mem_cons.mpr ⟨?_, ?_⟩
        · intro _
          obtain ⟨logger, found, facts⟩ := now
          refine ⟨logger, (later.others d.name ?_).trans found, facts⟩
          intro touched
          obtain ⟨i, member, _, same⟩ := touched
          exact other i member same
        · intro i member absent
          obtain ⟨logger, found, level, empty, formatter⟩ := all i member absent
          rw [Loggers.getLogger_congr (frame.others _ (other i member))] at formatter
          exact ⟨logger, found, level, empty, formatter⟩
    | some kept =>
      have result : removeOld new (d :: rest) s = removeOld new rest s := by
        simp [removeOld, gone]
      obtain ⟨frame, all⟩ := ih s distinctRest
      rw [result]
      refine ⟨?_, ?_⟩
      · apply frame.congr
        exact named_skip (by simp [gone]) rest
      · exact List.forall_mem_cons.mpr ⟨fun absent => by simp [gone] at absent, all⟩

/-- The names of the loggers that a change of the variable touches. -/
def Touched (old new : LogDefines) (name : Text) : Prop :=
  Named (fun i => changed old i = true) new.entries name ∨
    Named (fun i => new.find? i.name = none) old.entries name

/-- Both loops together. -/
theorem reconfigure_typed (daemon : Bool) (old new : LogDefines) (s : Loggers) (sound : s.Sound)
    (typed : ∀ i ∈ new.entries, changed old i = true → i.Typed) :
    ∃ next, reconfigure daemon old new s = some next ∧ Frame (Touched old new) s next ∧
      (∀ i ∈ new.entries, changed old i = true → Configured daemon s next i) ∧
      ∀ i ∈ old.entries, new.find? i.name = none → Disabled s next i := by
  obtain ⟨middle, applied, frame, configured⟩ :=
    applyNew_typed daemon old new.entries s sound new.keys_nodup typed
  obtain ⟨later, disabled⟩ := removeOld_spec new old.entries middle old.keys_nodup
  -- a logger that is gone is not named in the new set, so the first loop left it alone
  have untouched (i : LogDefine) (absent : new.find? i.name = none) :
      middle.table.find? i.name = s.table.find? i.name := by
    apply frame.others
    intro touched
    obtain ⟨d, member, _, same⟩ := touched
    exact (Table.find?_eq_none_iff _ _).mp absent d member same
  refine ⟨removeOld new old.entries middle, by simp [reconfigure, applied], frame.trans later, ?_, ?_⟩
  · intro i member isChanged
    apply (configured i member isChanged).frame later
    · intro touched
      obtain ⟨d, _, absent, same⟩ := touched
      exact (Table.find?_eq_none_iff _ _).mp absent i member same.symm
    · intro name logger touched found p attached
      obtain ⟨d, _, absent, rfl⟩ := touched
      exact sound.attached d.name logger ((untouched d absent).symm.trans found) p attached
  · intro i member absent
    obtain ⟨logger, found, level, empty, formatter⟩ := disabled i member absent
    rw [Loggers.getLogger_congr (untouched i absent)] at formatter
    exact ⟨logger, found, level, empty, formatter⟩

theorem reconfigure_some {daemon : Bool} {old new : LogDefines} {s next : Loggers}
    (done : reconfigure daemon old new s = some next) :
    ∀ i ∈ new.entries, changed old i = true → i.Typed := by
  rw [reconfigure] at done
  split at done
  · cases done
  · rename_i applied
    exact applyNew_some applied

theorem reconfigure_sound {daemon : Bool} {old new : LogDefines} {s next : Loggers}
    (sound : s.Sound) (done : reconfigure daemon old new s = some next) : next.Sound := by
  obtain ⟨next', done', frame, _⟩ := reconfigure_typed daemon old new s sound (reconfigure_some done)
  cases done.symm.trans done'
  exact frame.sound sound

theorem reconfigure_heap {daemon : Bool} {old new : LogDefines} {s next : Loggers} (sound : s.Sound)
    (done : reconfigure daemon old new s = some next) {p : Nat} (before : p < s.heap.length) :
    next.heap[p]? = s.heap[p]?.map (LogAppender.offered (passed old s p new.entries)) := by
  unfold reconfigure at done
  split at done
  · cases done
  · rename_i middle applied
    cases done
    rw [removeOld_heap]
    exact applyNew_heap sound new.keys_nodup applied before

/-- The listener that `LogIniter` registers for `logs`, with its first line. -/
def logIniter (daemon : Bool) : OnChange LogDefines LoggerManager := fun old new s =>
  match s.loggers.announce with
  | none => .crashes
  | some _ =>
    match result : reconfigure daemon old new s.loggers with
    | none => .crashes
    | some next => .returns () ⟨next, reconfigure_sound s.sound result⟩

theorem logIniter_returns {daemon : Bool} {old new : LogDefines} {s : LoggerManager} {next : Loggers}
    (announces : s.loggers.Announces) (done : reconfigure daemon old new s.loggers = some next) :
    logIniter daemon old new s = .returns () ⟨next, reconfigure_sound s.sound done⟩ := by
  obtain ⟨lines, announced⟩ := s.sound.announce_eq_some_iff.mpr announces
  simp only [logIniter, announced]
  split
  · rename_i result
    cases done.symm.trans result
  · rename_i result
    cases done.symm.trans result
    rfl

theorem logIniter_crashes {daemon : Bool} {old new : LogDefines} {s : LoggerManager}
    (stops : ¬ s.loggers.Announces ∨ reconfigure daemon old new s.loggers = none) :
    logIniter daemon old new s = .crashes := by
  unfold logIniter
  split
  · rfl
  · rename_i announced
    have announces : s.loggers.Announces := s.sound.announce_eq_some_iff.mp ⟨_, announced⟩
    have stopped := stops.resolve_left (not_not_intro announces)
    split
    · rfl
    · rename_i result
      cases stopped.symm.trans result

theorem changed_iff (old : LogDefines) (i : LogDefine) :
    changed old i = true ↔ ∀ it, old.find? i.name = some it → (i == it) = false := by
  cases found : old.find? i.name with
  | none => simp [changed, found]
  | some it => simp [changed, found]

/-- What is said of a change: loggers of new and of unequal definitions are configured,
loggers of definitions that are gone are disabled, and all others are as before, with
the appenders that they have. -/
def Difference (daemon : Bool) (old new : LogDefines) (s : LoggerManager) : Prop :=
  ∃ final, logIniter daemon old new s = .returns () final ∧
    (∀ i ∈ new.entries, (∀ it, old.find? i.name = some it → (i == it) = false) →
      Configured daemon s.loggers final.loggers i) ∧
    (∀ i ∈ old.entries, new.find? i.name = none → Disabled s.loggers final.loggers i) ∧
    ∀ name, ¬ Touched old new name →
      final.loggers.table.find? name = s.loggers.table.find? name ∧
        ∀ logger, s.loggers.table.find? name = some logger → ∀ p ∈ logger.appenders,
          final.loggers.heap[p]? = s.loggers.heap[p]?

/-- If its first line can be written the listener applies the difference, but for the
appenders that are shared: one without a formatter of its own has the last one that is
given to a logger it was attached to, also where it stays attached to another logger. -/
theorem logIniter_difference (daemon : Bool) (old new : LogDefines) (s : LoggerManager)
    (typed : ∀ i ∈ new.entries, i.Typed) (announces : s.loggers.Announces) :
    ∃ final, logIniter daemon old new s = .returns () final ∧
      (∀ i ∈ new.entries, (∀ it, old.find? i.name = some it → (i == it) = false) →
        Configured daemon s.loggers final.loggers i) ∧
      (∀ i ∈ old.entries, new.find? i.name = none → Disabled s.loggers final.loggers i) ∧
      (∀ name, ¬ Touched old new name →
        final.loggers.table.find? name = s.loggers.table.find? name) ∧
      ∀ p < s.loggers.heap.length, final.loggers.heap[p]? =
        s.loggers.heap[p]?.map (LogAppender.offered (passed old s.loggers p new.entries)) := by
  obtain ⟨next, done, frame, configured, disabled⟩ :=
    reconfigure_typed daemon old new s.loggers s.sound fun i member _ => typed i member
  refine ⟨⟨next, reconfigure_sound s.sound done⟩, logIniter_returns announces done, ?_, disabled, frame.others, ?_⟩
  · intro i member differs
    exact configured i member ((changed_iff old i).mpr differs)
  · intro p before
    exact reconfigure_heap s.sound done before

/-- The root logger with a file and a console appender. -/
def rootDefine : LogDefine :=
  ⟨Loggers.rootName, .info, [], [⟨1, .unknow, [], ['f']⟩, ⟨2, .warn, ['%', 'm'], []⟩]⟩

theorem create_announces : LoggerManager.create.loggers.Announces := by
  intro root found _ p member appender there _
  obtain ⟨inside, _⟩ := (Table.find?_eq_some_iff _ _ _).mp found
  cases List.mem_singleton.mp inside
  cases List.mem_singleton.mp member
  cases there
  simp [Logger.adopt, Logger.create, LogAppender.create, LogAppender.getFormatter]

/-- A first definition of the root logger, in a daemon. -/
theorem logIniter_difference_root :
    ∃ final, logIniter true .empty (Table.empty.put rootDefine) .create = .returns () final ∧
      Configured true LoggerManager.create.loggers final.loggers rootDefine := by
  have typed : ∀ i ∈ (Table.empty.put rootDefine : LogDefines).entries, i.Typed := by
    intro i member
    rw [List.mem_singleton.mp member]
    simp [LogDefine.Typed, rootDefine]
  obtain ⟨final, done, configured, _⟩ :=
    logIniter_difference true .empty (Table.empty.put rootDefine) .create typed create_announces
  refine ⟨final, done, configured rootDefine (List.mem_singleton_self _) ?_⟩
  intro it found
  cases found

/-- A console appender of the program is attached to the root logger and to another one. -/
def sharedAppender : LoggerManager :=
  let attached := (LoggerManager.create.newAppender (LogAppender.create .stdout)).addAppender Loggers.rootName 1
    (by decide)
  attached.addAppender ['a'] 1 (by decide)

/-- A definition of the other logger, with a formatter. -/
def otherDefine : LogDefine := ⟨['a'], .info, ['%', 'm'], []⟩

/-- After `setFormatter(nullptr)` on the appender nothing can be announced. -/
theorem sharedAppender_silent : ¬ (sharedAppender.setOwn 1 none).loggers.Announces := by
  intro announces
  obtain ⟨lines, announced⟩ := (sharedAppender.setOwn 1 none).sound.announce_eq_some_iff.mpr announces
  cases announced

/-- A change of the other logger gives the appender another formatter, for the root as
well; and after `setFormatter(nullptr)` on the appender the listener does not return. -/
theorem logIniter_difference_fails :
    ¬ Difference false .empty (Table.empty.put otherDefine) sharedAppender ∧
      ¬ Difference false .empty (Table.empty.put otherDefine) (sharedAppender.setOwn 1 none) := by
  constructor
  · rintro ⟨final, done, _, _, kept⟩
    obtain ⟨next, reconfigured⟩ : ∃ next, reconfigure false .empty (Table.empty.put otherDefine)
        sharedAppender.loggers = some next := ⟨_, rfl⟩
    have announces : sharedAppender.loggers.Announces := sharedAppender.sound.announce_eq_some_iff.mp ⟨_, rfl⟩
    cases done.symm.trans (logIniter_returns announces reconfigured)
    have untouched : ¬ Touched .empty (Table.empty.put otherDefine) Loggers.rootName := by
      rintro (⟨i, member, _, name⟩ | ⟨i, member, _⟩)
      · cases List.mem_singleton.mp member
        exact absurd name (by decide)
      · cases member
    obtain ⟨root, found, member⟩ : ∃ root, sharedAppender.loggers.table.find? Loggers.rootName = some root ∧
        1 ∈ root.appenders := ⟨_, rfl, by decide⟩
    have same := (kept Loggers.rootName untouched).2 root found 1 member
    have inside : 1 < sharedAppender.loggers.heap.length := by decide
    rw [reconfigure_heap sharedAppender.sound reconfigured inside] at same
    exact absurd same (by decide)
  · rintro ⟨final, done, _⟩
    cases done.symm.trans (logIniter_crashes (.inl sharedAppender_silent))

end Sylar
