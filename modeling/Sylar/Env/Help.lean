import Mathlib.Logic.Function.Basic
import Sylar.Env
import Sylar.Library.Since

/-! The help entries under threads. Each locked section of `addHelp` and `removeHelp`
is one step; between the two sections of an `addHelp` every other thread may run. -/
namespace Sylar

open Library

namespace Env

/-- The section of `removeHelp`: it erases every entry with the key. -/
def removeHelp (key : Text) (env : Env) : Env :=
  { env with helps := env.helps.filter fun entry => entry.1 ≠ key }

/-- The last section of `addHelp`. -/
def pushHelp (key desc : Text) (env : Env) : Env := { env with helps := env.helps ++ [(key, desc)] }

/-- `addHelp` with nothing in between. -/
def addHelp (key desc : Text) (env : Env) : Env := (env.removeHelp key).pushHelp key desc

/-- The keys of the help entries, in order. -/
def helpKeys (env : Env) : List Text := env.helps.map Prod.fst

theorem helpKeys_removeHelp (key : Text) (env : Env) :
    (env.removeHelp key).helpKeys = env.helpKeys.filter (· ≠ key) := by
  rw [helpKeys, helpKeys, List.filter_map]
  rfl

theorem helpKeys_pushHelp (key desc : Text) (env : Env) :
    (env.pushHelp key desc).helpKeys = env.helpKeys ++ [key] := by
  simp [helpKeys, pushHelp]

/-- Undisturbed, `addHelp` keeps the keys unique. -/
theorem nodup_addHelp {env : Env} (unique : env.helpKeys.Nodup) (key desc : Text) :
    (env.addHelp key desc).helpKeys.Nodup := by
  rw [addHelp, helpKeys_pushHelp, helpKeys_removeHelp, List.nodup_append]
  refine ⟨unique.filter _, List.nodup_singleton key, ?_⟩
  intro other kept same single
  rw [List.mem_singleton.mp single]
  simpa using (List.mem_filter.mp kept).2

end Env

inductive HelpCall where
  | addHelp (key desc : Text)
  | removeHelp (key : Text)

/-- The locked sections, in the order in which they run. -/
inductive HelpSection where
  | removed (key : Text)
  | pushed (key desc : Text)
  deriving DecidableEq

/-- A thread enters a call, or the last section of the `addHelp` it is in. -/
inductive HelpStep (I : Type u) where
  | enter (i : I) (call : HelpCall)
  | resume (i : I)

/-- The entries, and for each thread the `addHelp` whose last section it still has to run. -/
structure HelpThreads (I : Type u) where
  env : Env
  adding : I → Option (Text × Text)

namespace HelpThreads

variable {I : Type u} [DecidableEq I]

def step (s : HelpThreads I) : HelpStep I → Option (List HelpSection × HelpThreads I)
  | .enter i call =>
    match s.adding i with
    | some _ => none
    | none =>
      match call with
      | .addHelp key desc =>
        some ([.removed key], ⟨s.env.removeHelp key, Function.update s.adding i (some (key, desc))⟩)
      | .removeHelp key => some ([.removed key], { s with env := s.env.removeHelp key })
  | .resume i =>
    match s.adding i with
    | some (key, desc) =>
      some ([.pushed key desc], ⟨s.env.pushHelp key desc, Function.update s.adding i none⟩)
    | none => none

/-- A thread that runs both sections at once has run `addHelp`. -/
theorem addHelp_undisturbed {s : HelpThreads I} {i : I} (free : s.adding i = none) (key desc : Text) :
    run step [.enter i (.addHelp key desc), .resume i] s =
      some ([.removed key, .pushed key desc], { s with env := s.env.addHelp key desc }) := by
  have back : Function.update s.adding i none = s.adding := by
    rw [← free, Function.update_eq_self]
  simp [run, step, free, back, Env.addHelp]

/-- No thread is in a call and there are no entries. -/
def start (env : Env) : HelpThreads I := ⟨{ env with helps := [] }, fun _ => none⟩

/-- At most one entry for each key. -/
def Unique (s : HelpThreads I) : Prop := s.env.helpKeys.Nodup

/-- Between two pushes of a key some section removes it. -/
def Spaced (events : List HelpSection) : Prop :=
  ∀ front key desc between desc' back,
    events = front ++ .pushed key desc :: between ++ .pushed key desc' :: back → .removed key ∈ between

/-- A push of the key. -/
def Pushes (key : Text) (event : HelpSection) : Prop := ∃ desc, event = .pushed key desc

/-- The sections so far pushed the key and did not remove it since. -/
def Held (key : Text) (past : List HelpSection) : Prop := Since (Pushes key) (· = .removed key) past

omit [DecidableEq I]

theorem spaced_concat {past : List HelpSection} (event : HelpSection) :
    Spaced (past ++ [event]) ↔
      Spaced past ∧ ∀ key desc, event = .pushed key desc → ¬ Held key past := by
  constructor
  · intro spaced
    constructor
    · rintro front key desc between desc' back rfl
      exact spaced front key desc between desc' (back ++ [event]) (by simp)
    · rintro key desc rfl ⟨front, first, between, rfl, ⟨desc', rfl⟩, kept⟩
      have removed := spaced front key desc' between desc [] rfl
      exact kept _ removed rfl
  · rintro ⟨spaced, apart⟩ front key desc between desc' back split
    rcases split_concat split with ⟨rfl, same, _⟩ | ⟨rest, rfl, before⟩
    · by_contra kept
      refine apart key desc' same.symm ⟨front, _, between, rfl, ⟨desc, rfl⟩, ?_⟩
      rintro later member rfl
      exact kept member
    · exact spaced front key desc between desc' rest before

/-- All that a step does to the keys. -/
theorem step_cases [DecidableEq I] {s next : HelpThreads I} {label : HelpStep I} {events : List HelpSection}
    (taken : step s label = some (events, next)) :
    (∃ key, events = [.removed key] ∧ next.env.helpKeys = s.env.helpKeys.filter (· ≠ key)) ∨
    (∃ key desc, events = [.pushed key desc] ∧ next.env.helpKeys = s.env.helpKeys ++ [key]) := by
  cases label with
  | enter i call =>
    simp only [step] at taken
    split at taken
    · cases taken
    · cases call with
      | addHelp key desc =>
        cases taken
        exact .inl ⟨key, rfl, Env.helpKeys_removeHelp key s.env⟩
      | removeHelp key =>
        cases taken
        exact .inl ⟨key, rfl, Env.helpKeys_removeHelp key s.env⟩
  | resume i =>
    simp only [step] at taken
    split at taken
    · rename_i key desc _
      cases taken
      exact .inr ⟨key, desc, rfl, Env.helpKeys_pushHelp key desc s.env⟩
    · cases taken

/-- The entries are those that the sections so far pushed and did not remove. -/
def Tracked (s : HelpThreads I) (past : List HelpSection) : Prop :=
  ∀ key, key ∈ s.env.helpKeys ↔ Held key past

theorem tracked_step [DecidableEq I] {s next : HelpThreads I} {label : HelpStep I}
    {past events : List HelpSection} (tracked : s.Tracked past)
    (taken : step s label = some (events, next)) : next.Tracked (past ++ events) := by
  intro key
  rcases step_cases taken with ⟨gone, rfl, keys⟩ | ⟨new, desc, rfl, keys⟩
  · rw [keys, Held, since_concat, List.mem_filter, tracked key, Held]
    simp [Pushes, eq_comm (a := gone)]
  · rw [keys, Held, since_concat, List.mem_append, tracked key, Held]
    simp [Pushes, eq_comm (a := new), or_comm]

theorem tracked_start (env : Env) : (start env : HelpThreads I).Tracked [] := by
  intro key
  constructor
  · intro member
    cases member
  · intro held
    exact absurd held not_since_nil

/-- A step keeps the keys apart unless it pushes one that is there. -/
theorem unique_step [DecidableEq I] {s next : HelpThreads I} {label : HelpStep I}
    {past events : List HelpSection} (tracked : s.Tracked past)
    (unique : s.Unique) (spaced : Spaced past) (taken : step s label = some (events, next)) :
    next.Unique ↔ Spaced (past ++ events) := by
  rcases step_cases taken with ⟨gone, rfl, keys⟩ | ⟨new, desc, rfl, keys⟩
  · rw [Unique, keys, spaced_concat]
    constructor
    · intro _
      refine ⟨spaced, ?_⟩
      rintro key desc ⟨⟩
    · intro _
      exact unique.filter _
  · rw [Unique, keys, spaced_concat, List.nodup_append]
    constructor
    · rintro ⟨_, _, apart⟩
      refine ⟨spaced, ?_⟩
      rintro key desc' same holds
      cases same
      exact apart new ((tracked new).mpr holds) new List.mem_cons_self rfl
    · rintro ⟨_, apart⟩
      refine ⟨unique, List.nodup_singleton new, ?_⟩
      intro key member other single same
      cases List.mem_singleton.mp single
      subst same
      exact apart key desc rfl ((tracked key).mp member)

/-- The keys are unique in all states of a run just when between two pushes of one key
some section removes it. -/
theorem unique_iff_spaced [DecidableEq I] (env : Env) {labels : List (HelpStep I)}
    {events : List HelpSection} {final : HelpThreads I}
    (ran : run step labels (start env) = some (events, final)) :
    Always step (fun s _ => s.Unique) labels (start env) ↔ Spaced events := by
  have kept (s : HelpThreads I) (label : HelpStep I) (past events : List HelpSection)
      (next : HelpThreads I) (tracked : s.Tracked past) (taken : step s label = some (events, next)) :
      next.Tracked (past ++ events) := tracked_step tracked taken
  refine always_iff_events kept ?_ ?_ ran (tracked_start env) ?_ ?_
  · intro s label past events next tracked unique spaced taken
    exact unique_step tracked unique spaced taken
  · intro past events spaced front key desc between desc' back split
    subst split
    exact spaced front key desc between desc' (back ++ events) (by simp)
  · exact List.nodup_nil
  · intro front key desc between desc' back split
    simp at split

def blank : Env := ⟨.empty, [], [], [], []⟩

/-- Two threads one after the other. -/
def inTurn : List (HelpStep Bool) :=
  [.enter true (.addHelp ['h'] ['a']), .resume true, .enter false (.addHelp ['h'] ['b']), .resume false]

theorem unique_iff_spaced_inTurn :
    ∃ events final, run step inTurn (start blank) = some (events, final) ∧
      (Always step (fun s _ => s.Unique) inTurn (start blank) ↔ Spaced events) :=
  ⟨_, _, rfl, unique_iff_spaced blank rfl⟩

/-- Both threads remove the key before either of them pushes it. -/
def overlapping : List (HelpStep Bool) :=
  [.enter true (.addHelp ['h'] ['a']), .enter false (.addHelp ['h'] ['b']), .resume true, .resume false]

theorem overlapping_not_unique :
    (∃ events final, run step overlapping (start blank) = some (events, final)) ∧
    ¬ Always step (fun s _ => s.Unique) overlapping (start blank) := by
  refine ⟨⟨_, _, rfl⟩, ?_⟩
  intro always
  have twice : [['h'], ['h']].Nodup := always overlapping [] rfl _ _ rfl
  exact absurd twice (by decide)

end HelpThreads

end Sylar
