import Sylar.Log.System

/-! What a sequence of `logs` values leaves behind. A definition without a formatter
keeps the one that its logger has, and a logger that is gone keeps it too: a logger's
formatter is the last one that any value of the sequence has given to its name. -/
namespace Sylar

open Library

/-- The formatter that a value gives to a name: one that is non-empty and parses. -/
def given (name : Text) (v : LogDefines) : Option Text :=
  match v.find? name with
  | none => none
  | some i =>
    if i.formatter ≠ [] ∧ (LogFormatter.create i.formatter).isError = false then some i.formatter
    else none

/-- The last formatter that a sequence of values gives to a name. -/
def lastGiven (name : Text) (vs : List LogDefines) : Option Text :=
  vs.foldl (fun last v => (given name v).or last) none

theorem lastGiven_append (name : Text) (vs : List LogDefines) (v : LogDefines) :
    lastGiven name (vs ++ [v]) = (given name v).or (lastGiven name vs) := by
  simp [lastGiven]

/-- The formatter of a logger after a sequence of values. -/
def residue (name : Text) (vs : List LogDefines) : LogFormatter :=
  LogFormatter.create ((lastGiven name vs).getD defaultPattern)

theorem residue_given {name text : Text} {vs : List LogDefines} {v : LogDefines}
    (gives : given name v = some text) : residue name (vs ++ [v]) = LogFormatter.create text := by
  rw [residue, lastGiven_append, gives]
  rfl

theorem residue_kept {name : Text} {vs : List LogDefines} {v : LogDefines} (gives : given name v = none) :
    residue name (vs ++ [v]) = residue name vs := by
  rw [residue, lastGiven_append, gives]
  rfl

/-- The state after a sequence of values: the variable compares equal to the last one,
the loggers it names have its levels and formatters, and every formatter is the
sequence's residue. -/
structure Follows (s : LogSystem) (vs : List LogDefines) : Prop where
  last : ∀ v, vs.getLast? = some v → ∀ i ∈ v.entries, ∃ it ∈ s.logs.entries, (i == it) = true
  levels : ∀ it ∈ s.logs.entries, ∃ logger, s.manager.loggers.table.find? it.name = some logger ∧
    logger.level = it.level
  gives : ∀ it ∈ s.logs.entries, ∀ text, given it.name s.logs = some text →
    (s.manager.loggers.getLogger it.name).1.formatter = some (LogFormatter.create text)
  formatters : ∀ name, (s.manager.loggers.getLogger name).1.formatter = some (residue name vs)

theorem exists_of_beq_entries {as bs : List LogDefine} (same : (as == bs) = true) :
    ∀ a ∈ as, ∃ b ∈ bs, (a == b) = true := by
  induction as generalizing bs with
  | nil =>
    intro a member
    cases member
  | cons a as ih =>
    cases bs with
    | nil => cases same
    | cons b bs =>
      rw [List.cons_beq_cons, Bool.and_eq_true] at same
      intro x member
      rcases List.mem_cons.mp member with rfl | member
      · exact ⟨b, List.mem_cons_self, same.1⟩
      · obtain ⟨y, inside, equal⟩ := ih same.2 x member
        exact ⟨y, List.mem_cons_of_mem b inside, equal⟩

theorem given_of_mem {v : LogDefines} {i : LogDefine} (member : i ∈ v.entries) :
    given i.name v =
      if i.formatter ≠ [] ∧ (LogFormatter.create i.formatter).isError = false then some i.formatter
      else none := by
  have found : v.find? i.name = some i := (Table.find?_eq_some_iff _ _ _).mpr ⟨member, rfl⟩
  rw [given, found]

theorem given_of_absent {v : LogDefines} {name : Text} (absent : v.find? name = none) :
    given name v = none := by
  rw [given, absent]

/-- Definitions that compare equal give the same formatter. -/
theorem given_of_beq {v w : LogDefines} {i it : LogDefine} (member : i ∈ v.entries)
    (inside : it ∈ w.entries) (same : (i == it) = true) : given i.name v = given it.name w := by
  obtain ⟨_, _, formatter⟩ := (LogDefine.equals_iff i it).mp same
  rw [given_of_mem member, given_of_mem inside, formatter]

theorem formatterOr_given {v : LogDefines} {i : LogDefine} (member : i ∈ v.entries)
    (name : Text) (same : i.name = name) (vs : List LogDefines) :
    formatterOr i.formatter (some (residue name vs)) = some (residue name (vs ++ [v])) := by
  subst same
  have gives := given_of_mem member
  unfold formatterOr
  split
  · rename_i good
    rw [if_pos good] at gives
    rw [residue_given gives]
  · rename_i bad
    rw [if_neg bad] at gives
    rw [residue_kept gives]

theorem equal_of_unchanged {old : LogDefines} {i : LogDefine} (unchanged : changed old i = false) :
    ∃ it ∈ old.entries, (i == it) = true := by
  cases found : old.find? i.name with
  | none => simp [changed, found] at unchanged
  | some it =>
    obtain ⟨inside, _⟩ := (Table.find?_eq_some_iff _ _ _).mp found
    exact ⟨it, inside, by simpa [changed, found] using unchanged⟩

namespace Follows

variable {daemon : Bool} {s next : LogSystem} {vs : List LogDefines} {v : LogDefines} {i it : LogDefine}

/-- In a new system every logger has the default pattern. -/
theorem create : Follows .create [] where
  last v member := by cases member
  levels it member := by cases member
  gives it member := by cases member
  formatters name := by
    cases found : LogSystem.create.manager.loggers.table.find? name with
    | none =>
      rw [Loggers.getLogger, found]
      rfl
    | some logger =>
      obtain ⟨inside, _⟩ := (Table.find?_eq_some_iff _ _ _).mp found
      rw [Loggers.getLogger_found found, List.mem_singleton.mp inside]
      rfl

/-- A definition that compares equal to the old one gives what its logger has. -/
theorem unchanged (follows : Follows s vs) (member : i ∈ v.entries) (inside : it ∈ s.logs.entries)
    (same : (i == it) = true) :
    (s.manager.loggers.getLogger i.name).1.formatter = some (residue i.name (vs ++ [v])) := by
  cases gives : given i.name v with
  | none => rw [residue_kept gives, follows.formatters]
  | some text =>
    have name : i.name = it.name := ((LogDefine.equals_iff i it).mp same).1
    rw [given_of_beq member inside same] at gives
    rw [residue_given (given_of_beq member inside same ▸ gives), name, follows.gives it inside text gives]

/-- `setValue` with a value that compares equal. -/
theorem ignore (follows : Follows s vs) (same : (v == s.logs) = true) : Follows s (vs ++ [v]) where
  last w isLast := by
    rw [List.getLast?_concat] at isLast
    cases isLast
    exact exists_of_beq_entries same
  levels := follows.levels
  gives := follows.gives
  formatters name := by
    cases found : v.find? name with
    | none => rw [residue_kept (given_of_absent found), follows.formatters]
    | some i =>
      obtain ⟨member, rfl⟩ := (Table.find?_eq_some_iff _ _ _).mp found
      obtain ⟨it, inside, equal⟩ := exists_of_beq_entries same i member
      exact follows.unchanged member inside equal

/-- `setValue` with another value: its changed definitions are applied, the others
compare equal to old ones, and the loggers of old ones that are gone are disabled. -/
theorem apply (follows : Follows s vs)
    (done : reconfigure daemon s.logs v s.manager.loggers = some next.manager.loggers)
    (stored : next.logs = v) : Follows next (vs ++ [v]) := by
  obtain ⟨_, done', frame, configured, disabled⟩ := reconfigure_typed daemon s.logs v
    s.manager.loggers s.manager.sound (reconfigure_some done)
  cases done.symm.trans done'
  have formatters (name : Text) :
      (next.manager.loggers.getLogger name).1.formatter = some (residue name (vs ++ [v])) := by
    cases found : v.find? name with
    | none =>
      rw [residue_kept (given_of_absent found), ← follows.formatters]
      cases before : s.logs.find? name with
      | some i =>
        obtain ⟨member, rfl⟩ := (Table.find?_eq_some_iff _ _ _).mp before
        obtain ⟨logger, after, _, _, formatter⟩ := disabled i member found
        rw [Loggers.getLogger_found after, formatter]
      | none =>
        have untouched : ¬ Touched s.logs v name := by
          rintro (⟨i, member, _, same⟩ | ⟨i, member, _, same⟩)
          · exact (Table.find?_eq_none_iff _ _).mp found i member same
          · exact (Table.find?_eq_none_iff _ _).mp before i member same
        rw [Loggers.getLogger_congr (frame.others name untouched)]
    | some i =>
      obtain ⟨member, rfl⟩ := (Table.find?_eq_some_iff _ _ _).mp found
      cases isChanged : changed s.logs i with
      | true =>
        obtain ⟨logger, after, _, formatter, _⟩ := configured i member isChanged
        rw [Loggers.getLogger_found after, formatter, follows.formatters]
        exact formatterOr_given member i.name rfl vs
      | false =>
        obtain ⟨it, inside, equal⟩ := equal_of_unchanged isChanged
        rw [Loggers.getLogger_congr (frame.others i.name (not_touched member isChanged))]
        exact follows.unchanged member inside equal
  refine ⟨?_, ?_, ?_, formatters⟩
  · intro w isLast i member
    rw [List.getLast?_concat] at isLast
    cases isLast
    exact ⟨i, stored ▸ member, (LogDefine.equals_iff i i).mpr ⟨rfl, rfl, rfl⟩⟩
  · rw [stored]
    intro i member
    cases isChanged : changed s.logs i with
    | true =>
      obtain ⟨logger, after, level, _⟩ := configured i member isChanged
      exact ⟨logger, after, level⟩
    | false =>
      obtain ⟨it, inside, equal⟩ := equal_of_unchanged isChanged
      obtain ⟨name, level, _⟩ := (LogDefine.equals_iff i it).mp equal
      obtain ⟨logger, before, sameLevel⟩ := follows.levels it inside
      rw [← name] at before
      exact ⟨logger, (frame.others i.name (not_touched member isChanged)).trans before,
        sameLevel.trans level.symm⟩
  · rw [stored]
    intro i _ text gives
    rw [formatters, residue_given gives]

theorem setLogs (follows : Follows s vs) {events : List (Event LogDefines)}
    (done : s.setLogs daemon v = some (events, next)) : Follows next (vs ++ [v]) := by
  rcases LogSystem.setLogs_cases done with ⟨same, _, rfl⟩ | ⟨_, _, stored, _, reconfigured⟩
  · exact follows.ignore same
  · exact follows.apply reconfigured stored

/-- A run of `setValue` calls. -/
theorem run (follows : Follows s vs) (ws : List LogDefines) {events : List (Event LogDefines)}
    (ran : Library.run (LogSystem.step daemon) (ws.map .setLogs) s = some (events, next)) :
    Follows next (vs ++ ws) := by
  induction ws generalizing s vs events with
  | nil =>
    cases ran
    simpa using follows
  | cons w ws ih =>
    obtain ⟨_, middle, _, taken, rest, _⟩ := run_cons_eq_some.mp ran
    simpa using ih (follows.setLogs taken) rest

end Follows

/-- The pattern of a logger's formatter. -/
def Logger.pattern (logger : Logger) : Option Text := logger.formatter.map LogFormatter.getPattern

/-- Both states have a logger of the name, with the same level and pattern. -/
def Alike (s t : LogSystem) (name : Text) : Prop :=
  ∃ l m, s.manager.loggers.table.find? name = some l ∧ t.manager.loggers.table.find? name = some m ∧
    l.level = m.level ∧ l.pattern = m.pattern

/-- What a sequence leaves of the loggers that its last value names. -/
theorem Follows.configured {s : LogSystem} {vs : List LogDefines} {c : LogDefines} {i : LogDefine}
    (follows : Follows s (vs ++ [c])) (member : i ∈ c.entries) :
    ∃ logger, s.manager.loggers.table.find? i.name = some logger ∧ logger.level = i.level ∧
      logger.pattern = some ((lastGiven i.name (vs ++ [c])).getD defaultPattern) := by
  obtain ⟨it, inside, equal⟩ := follows.last c (by simp) i member
  obtain ⟨name, level, _⟩ := (LogDefine.equals_iff i it).mp equal
  obtain ⟨logger, found, sameLevel⟩ := follows.levels it inside
  rw [← name] at found
  have formatter := follows.formatters i.name
  rw [Loggers.getLogger_found found] at formatter
  refine ⟨logger, found, sameLevel.trans level.symm, ?_⟩
  rw [Logger.pattern, formatter]
  rfl

namespace LogSystem

/-- Two sequences of values that end in one leave its loggers at the same levels, with
the pattern that each sequence gave last: the same where the last value gives one. -/
theorem setLogs_history (daemon : Bool) {vs ws : List LogDefines} {c : LogDefines} {s t : LogSystem}
    {before after : List (Event LogDefines)}
    (left : run (step daemon) ((vs ++ [c]).map .setLogs) create = some (before, s))
    (right : run (step daemon) ((ws ++ [c]).map .setLogs) create = some (after, t))
    {i : LogDefine} (member : i ∈ c.entries) :
    ∃ l m, s.manager.loggers.table.find? i.name = some l ∧
      t.manager.loggers.table.find? i.name = some m ∧ l.level = i.level ∧ m.level = i.level ∧
      l.pattern = some ((lastGiven i.name (vs ++ [c])).getD defaultPattern) ∧
      m.pattern = some ((lastGiven i.name (ws ++ [c])).getD defaultPattern) ∧
      ((given i.name c).isSome → l.pattern = m.pattern) := by
  obtain ⟨l, found, level, pattern⟩ := (Follows.create.run (vs ++ [c]) left).configured member
  obtain ⟨m, found', level', pattern'⟩ := (Follows.create.run (ws ++ [c]) right).configured member
  refine ⟨l, m, found, found', level, level', pattern, pattern', ?_⟩
  intro gives
  obtain ⟨text, gives⟩ := Option.isSome_iff_exists.mp gives
  rw [pattern, pattern', lastGiven_append, lastGiven_append, gives]
  rfl

/-- The root logger with a formatter, or without one. -/
def rootText (formatter : Text) : LogDefines := Table.empty.put ⟨Loggers.rootName, .info, formatter, []⟩

/-- A text given and then left out. -/
theorem setLogs_history_kept :
    ∃ s t before after,
      run (step false) [.setLogs (rootText ['%', 'm']), .setLogs (rootText [])] create = some (before, s) ∧
      run (step false) [.setLogs (rootText [])] create = some (after, t) ∧
      ∃ l, s.manager.loggers.table.find? Loggers.rootName = some l ∧ l.pattern = some ['%', 'm'] := by
  refine ⟨_, _, _, _, rfl, rfl, ?_⟩
  obtain ⟨l, _, found, _, _, _, pattern, _⟩ := @setLogs_history false [rootText ['%', 'm']] []
    (rootText []) _ _ _ _ rfl rfl _ (List.mem_singleton_self _)
  exact ⟨l, found, pattern.trans rfl⟩

theorem setLogs_history_fails :
    ∃ s t before after,
      run (step false) [.setLogs (rootText ['%', 'm']), .setLogs (rootText [])] create = some (before, s) ∧
      run (step false) [.setLogs (rootText [])] create = some (after, t) ∧
      ¬ Alike s t Loggers.rootName := by
  refine ⟨_, _, _, _, rfl, rfl, ?_⟩
  rintro ⟨l, m, found, found', _, patterns⟩
  have first : l.pattern = some ['%', 'm'] := by cases found; rfl
  have second : m.pattern = some defaultPattern := by cases found'; rfl
  rw [first, second] at patterns
  exact absurd patterns (by decide)

end LogSystem

end Sylar
