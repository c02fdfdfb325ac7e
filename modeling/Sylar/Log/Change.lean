import Sylar.Log.Initer

/-! What a call of `setValue` on `logs` does as a whole: whether it stores, and
whether the listener applies the change. Both are decided by `LogDefine::operator==`. -/
namespace Sylar

open Library

/-- `g_log_defines` holding a value, with the listener of `LogIniter`. -/
def logsVar (daemon : Bool) (old : LogDefines) : ConfigVar LogDefines LoggerManager :=
  ⟨['l', 'o', 'g', 's'], old, Table.empty.put (1, logIniter daemon)⟩

/-- The logger of a definition has one appender, made anew, for each that the
definition asks for. -/
def Rebuilt (daemon : Bool) (before after : Loggers) (i : LogDefine) : Prop :=
  ∃ logger, after.table.find? i.name = some logger ∧
    (logger.appenders.map fun p => after.heap[p]?) =
      ((i.kept daemon).map fun a => some (a.defined logger.formatter)) ∧
    ∀ p ∈ logger.appenders, before.heap.length ≤ p

theorem Configured.rebuilt {daemon : Bool} {before after : Loggers} {i : LogDefine}
    (configured : Configured daemon before after i) : Rebuilt daemon before after i := by
  obtain ⟨logger, found, _, _, appenders, bounds⟩ := configured
  exact ⟨logger, found, appenders, fun p member => (bounds p member).1⟩

/-- `setValue(new)` returns, the variable holds `new`, and every logger whose
definition is not the old one in all fields has been rebuilt. -/
def TakesEffect (daemon : Bool) (old new : LogDefines) (s : LoggerManager) : Prop :=
  ∃ events after final, (logsVar daemon old).setValue new s = (events, after, .returns () final) ∧
    after.getValue = new ∧
    ∀ i ∈ new.entries, old.find? i.name ≠ some i → Rebuilt daemon s.loggers final.loggers i

/-- An update that takes effect: one that changes nothing, or one that compares unequal,
where the root logger can announce it, every definition that is applied has appenders of
the two types only, and every other one is the old one or finds no appender and gives none. -/
def Effective (daemon : Bool) (old new : LogDefines) (s : Loggers) : Prop :=
  new = old ∨ ((new == old) = false ∧ s.Announces ∧ ∀ i ∈ new.entries,
    if changed old i then i.Typed
    else old.find? i.name = some i ∨
      (i.kept daemon = [] ∧ ∃ logger, s.table.find? i.name = some logger ∧ logger.appenders = []))

theorem setValue_same {daemon : Bool} {old new : LogDefines} (same : (new == old) = true)
    (s : LoggerManager) :
    (logsVar daemon old).setValue new s = ([], logsVar daemon old, .returns () s) := by
  simp [ConfigVar.setValue, ConfigVar.compareAndNotify, logsVar, same]

theorem setValue_applied {daemon : Bool} {old new : LogDefines} (different : (new == old) = false)
    {s : LoggerManager} {next : Loggers} (announces : s.loggers.Announces)
    (done : reconfigure daemon old new s.loggers = some next) :
    (logsVar daemon old).setValue new s =
      ([.notified 1 old new, .stored new], (logsVar daemon old).store new,
        .returns () ⟨next, reconfigure_sound s.sound done⟩) := by
  have told : notify old new (logsVar daemon old).cbs.entries s =
      ([.notified 1 old new], .returns () ⟨next, reconfigure_sound s.sound done⟩) := by
    change notify old new [(1, logIniter daemon)] s = _
    simp [notify, logIniter_returns announces done]
  have val : (logsVar daemon old).val = old := rfl
  simp [ConfigVar.setValue, ConfigVar.compareAndNotify, val, different, told]

theorem setValue_crashed {daemon : Bool} {old new : LogDefines} (different : (new == old) = false)
    {s : LoggerManager} (stops : ¬ s.loggers.Announces ∨ reconfigure daemon old new s.loggers = none) :
    (logsVar daemon old).setValue new s = ([.notified 1 old new], logsVar daemon old, .crashes) := by
  have called : logIniter daemon old new s = .crashes := logIniter_crashes stops
  have told : notify old new (logsVar daemon old).cbs.entries s = ([.notified 1 old new], .crashes) := by
    change notify old new [(1, logIniter daemon)] s = _
    simp [notify, called]
  have val : (logsVar daemon old).val = old := rfl
  simp [ConfigVar.setValue, ConfigVar.compareAndNotify, val, different, told]

theorem beq_entries_refl (v : LogDefines) : (v == v) = true := by
  change (v.entries == v.entries) = true
  induction v.entries with
  | nil => rfl
  | cons i rest ih =>
    rw [List.cons_beq_cons, Bool.and_eq_true]
    exact ⟨(LogDefine.equals_iff i i).mpr ⟨rfl, rfl, rfl⟩, ih⟩

theorem not_touched {old new : LogDefines} {i : LogDefine} (member : i ∈ new.entries)
    (unchanged : changed old i = false) : ¬ Touched old new i.name := by
  rintro (⟨j, inside, isChanged, same⟩ | ⟨j, _, gone, same⟩)
  · rw [new.key_injective inside member same, unchanged] at isChanged
    cases isChanged
  · exact (Table.find?_eq_none_iff _ _).mp gone i member same.symm

/-- Appenders of loggers that are not touched are older, so such a logger is rebuilt only
if there is nothing to build. -/
theorem rebuilt_untouched_iff {daemon : Bool} {old new : LogDefines} {s : LoggerManager} {next : Loggers}
    {i : LogDefine} (frame : Frame (Touched old new) s.loggers next) (untouched : ¬ Touched old new i.name) :
    Rebuilt daemon s.loggers next i ↔
      i.kept daemon = [] ∧ ∃ logger, s.loggers.table.find? i.name = some logger ∧ logger.appenders = [] := by
  have same := frame.others i.name untouched
  constructor
  · rintro ⟨logger, found, appenders, fresh⟩
    have before := same.symm.trans found
    have empty : logger.appenders = [] := by
      apply List.eq_nil_iff_forall_not_mem.mpr
      intro p member
      exact Nat.not_le_of_lt (s.sound.attached i.name logger before p member) (fresh p member)
    rw [empty] at appenders
    exact ⟨List.map_eq_nil_iff.mp appenders.symm, logger, before, empty⟩
  · rintro ⟨nothing, logger, before, empty⟩
    refine ⟨logger, same.trans before, by rw [empty, nothing]; rfl, fun p member => ?_⟩
    rw [empty] at member
    cases member

/-- Exactly when an update of `logs` takes effect, for every old value and in every state
of the loggers. -/
theorem takesEffect_iff (daemon : Bool) (old new : LogDefines) (s : LoggerManager) :
    TakesEffect daemon old new s ↔ Effective daemon old new s.loggers := by
  cases same : new == old with
  | true =>
    -- the value stays, so it is the new one only if it was
    constructor
    · rintro ⟨events, after, final, set, stored, _⟩
      rw [setValue_same same] at set
      cases set
      exact .inl stored.symm
    · rintro (equal | ⟨different, _⟩)
      · refine ⟨[], logsVar daemon old, s, setValue_same same s, equal.symm, ?_⟩
        intro i member differs
        exact absurd ((Table.find?_eq_some_iff _ _ _).mpr ⟨equal ▸ member, rfl⟩) differs
      · cases same.symm.trans different
  | false =>
    have unequal : new ≠ old := by
      rintro rfl
      cases same.symm.trans (beq_entries_refl new)
    constructor
    · rintro ⟨events, after, final, set, stored, rebuilt⟩
      have announces : s.loggers.Announces := by
        by_contra silent
        rw [setValue_crashed same (.inl silent)] at set
        cases set
      cases done : reconfigure daemon old new s.loggers with
      | none =>
        rw [setValue_crashed same (.inr done)] at set
        cases set
      | some next =>
        have typed := reconfigure_some done
        obtain ⟨_, done', frame, _⟩ := reconfigure_typed daemon old new s.loggers s.sound typed
        cases done.symm.trans done'
        rw [setValue_applied same announces done] at set
        cases set
        refine .inr ⟨same, announces, fun i member => ?_⟩
        cases unchanged : changed old i with
        | true => exact typed i member unchanged
        | false =>
          by_cases kept : old.find? i.name = some i
          · exact .inl kept
          · exact .inr ((rebuilt_untouched_iff frame (not_touched member unchanged)).mp (rebuilt i member kept))
    · rintro (equal | ⟨_, announces, each⟩)
      · exact absurd equal unequal
      · have typed : ∀ i ∈ new.entries, changed old i = true → i.Typed := by
          intro i member isChanged
          have here := each i member
          rwa [isChanged, if_pos rfl] at here
        obtain ⟨next, done, frame, configured, _⟩ := reconfigure_typed daemon old new s.loggers s.sound typed
        refine ⟨_, _, _, setValue_applied same announces done, rfl, fun i member differs => ?_⟩
        cases unchanged : changed old i with
        | true => exact (configured i member unchanged).rebuilt
        | false =>
          have here := each i member
          rw [unchanged] at here
          exact (rebuilt_untouched_iff frame (not_touched member unchanged)).mpr (here.resolve_left differs)

/-- The root logger with one file appender. -/
def fileDefine (file : Text) : LogDefine := ⟨Loggers.rootName, .info, [], [⟨1, .unknow, [], file⟩]⟩

/-- An update of the file of the root logger's appender is not even stored. -/
theorem takesEffect_file_fails :
    ¬ TakesEffect false (Table.empty.put (fileDefine ['a'])) (Table.empty.put (fileDefine ['b'])) .create := by
  intro effect
  obtain ⟨events, after, final, set, stored, _⟩ := effect
  rw [setValue_same rfl] at set
  cases set
  cases congrArg Table.entries stored

end Sylar
