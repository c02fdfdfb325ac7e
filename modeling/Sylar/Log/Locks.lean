import Mathlib.Data.Fintype.Card
import Mathlib.Data.Fintype.EquivFin
import Mathlib.Order.Fin.Basic
import Sylar.Log.Threads

/-! The order of the spinlocks. Only a logger that is not the root has a parent, and that
is the root, so that a thread takes locks by rank on every path. -/
namespace Sylar

open Library

/-- manager < other loggers < root logger < appenders -/
def Lock.rank (root : Nat) : Lock → Fin 4
  | .manager => 0
  | .logger l => if l = root then 2 else 1
  | .appender _ => 3

theorem Lock.rank_logger (root l : Nat) :
    0 < (Lock.logger l).rank root ∧ (Lock.logger l).rank root < 3 := by
  simp only [Lock.rank]
  split_ifs with same
  · decide
  · decide

/-- The locks an action is performed under, and those that what it leaves to do ends with. -/
def admits (root : Nat) : LogAction → List Lock → List Lock → Prop
  | .log l _, held, after => after = held ∧ ∀ h ∈ held, h.rank root < (Lock.logger l).rank root
  | .route l _, held, after => after = held ∧ ∀ h ∈ held, h.rank root ≤ (Lock.logger l).rank root
  | .append _ _, held, after | .setFormatter _ _, held, after | .printLogger _, held, after =>
    after = held ∧ ∀ h ∈ held, h.rank root < 3
  | .check _ p, held, after => held = .appender p :: after ∧ ∀ h ∈ after, h.rank root < 3
  | .printAll, held, after => after = held ∧ ∀ h ∈ held, h.rank root < 1
  | .whole _ _, held, after | .inherit _ _, held, after | .adopt _ _, held, after
  | .push _ _, held, after | .read, held, after => after = held

abbrev Ranked (root : Nat) : List Lock → LogCode → List Lock → Prop :=
  LockOrdered (Lock.rank root) (admits root)

/-- Public operations start with no lock held, and end so. -/
theorem code_ranked (root : Nat) (call : PublicCall) : Ranked root [] call.code [] := by
  have none_held {k : Lock} : ∀ h ∈ ([] : List Lock), h.rank root < k.rank root := by simp
  have single (l : Nat) : ∀ h ∈ [Lock.logger l], h.rank root < 3 := by
    simpa using (Lock.rank_logger root l).2
  cases call with
  | change call =>
    cases call with
    | getLogger | delAppender | clearAppenders | setOwn => exact .guarded none_held rfl
    | newLogger | newAppender | setLevel => exact .act rfl (.nil [])
    | addAppender l p =>
      exact .acquire none_held (.acquire (single l) (.act ⟨rfl, single l⟩ (.release (.nil []))))
    | setFormatter l val => exact .guarded none_held ⟨rfl, single l⟩
    | setFormatterText l val =>
      simp only [PublicCall.code, LogCall.code]
      split_ifs
      · exact .nil []
      · exact .guarded none_held ⟨rfl, single l⟩
  | log l level => exact .act ⟨rfl, by simp⟩ (.nil [])
  | getFormatter | getOwn | printAppender | reopen => exact .guarded none_held rfl
  | toYamlString l => exact .guarded none_held ⟨rfl, single l⟩
  | dump => exact .guarded none_held ⟨rfl, by simp [Lock.rank]⟩
  | appendTo p level => exact .act ⟨rfl, by simp⟩ (.nil [])

/-- The loggers are rooted, and `root` is the root. -/
def RootedAt (root : Nat) (s : LogObjects) : Prop := s.Rooted ∧ s.root = root

section Perform

variable {root : Nat} {s : LogObjects}

/-- A loop over a logger's appenders, each piece under the appender's lock. -/
theorem eachAppender_ranked {l : Nat} {action : Nat → LogAction} {code : LogCode} {held : List Lock}
    (done : s.eachAppender l (fun p => guarded (.appender p) (action p)) = some code)
    (below : ∀ h ∈ held, h.rank root < 3)
    (admitted : ∀ p, admits root (action p) (.appender p :: held) (.appender p :: held)) :
    Ranked root held code held := by
  unfold LogObjects.eachAppender at done
  split at done
  · cases done
  · cases done
    exact .flatMap fun p _ => .guarded below (admitted p)

/-- Under a logger's lock only appenders and, for another logger, the root come next. -/
theorem route_ranked (rooted : RootedAt root s) {l : Nat} {level : LogLevel} {code : LogCode} {held : List Lock}
    (done : s.route l level = some code)
    (below : ∀ h ∈ held, h.rank root ≤ (Lock.logger l).rank root) : Ranked root held code held := by
  unfold LogObjects.route at done
  split at done
  · cases done
  · rename_i logger found
    split_ifs at done with appenders
    · cases done
      have low : ∀ h ∈ held, h.rank root < 3 := fun h member =>
        lt_of_le_of_lt (below h member) (Lock.rank_logger root l).2
      exact .flatMap fun p _ => .act ⟨rfl, low⟩ (.nil held)
    · split at done
      · rename_i parent under
        cases done
        obtain ⟨apart, same⟩ := (rooted.1.parents l logger found).resolve_left (by simp [under])
        have isRoot : parent = root := (Option.some.inj (under.symm.trans same)).trans rooted.2
        rw [rooted.2] at apart
        refine .act ⟨rfl, fun h member => lt_of_le_of_lt (below h member) ?_⟩ (.nil held)
        simp [Lock.rank, apart, isRoot]
      · cases done
        exact .nil held

theorem rootedAt_onLogger (rooted : RootedAt root s) {l : Nat} {next : LogObjects} {events : List Got}
    {call : Logger → List LogAppender → Logger × List LogAppender}
    (names : ∀ logger heap, (call logger heap).1.name = logger.name)
    (done : s.onLogger l call = some (events, next)) : RootedAt root next :=
  ⟨(rooted.1.onLogger names done).1, (LogObjects.onLogger_root done).trans rooted.2⟩

/-- Every action keeps the loggers rooted and leaves code that takes locks by rank. -/
theorem perform_ranked (rooted : RootedAt root s) {action : LogAction} {held after : List Lock}
    (admitted : admits root action held after) {events : List OwnSet} {next : LogObjects} {code : LogCode}
    (done : s.perform action = some (events, next, code)) : RootedAt root next ∧ Ranked root held code after := by
  cases action with
  | whole call single =>
    cases admitted
    simp only [LogObjects.perform] at done
    split at done
    · cases done
    · rename_i taken
      cases done
      exact ⟨⟨(LogObjects.step_rooted rooted.1 taken).1, (LogObjects.step_root taken).trans rooted.2⟩, .nil held⟩
  | log l level =>
    obtain ⟨rfl, below⟩ := admitted
    simp only [LogObjects.perform] at done
    split at done
    · cases done
    · cases done
      refine ⟨rooted, ?_⟩
      split_ifs
      · refine .guarded below ⟨rfl, List.forall_mem_cons.mpr ⟨le_refl _, ?_⟩⟩
        exact fun h member => le_of_lt (below h member)
      · exact .nil after
  | route l level =>
    obtain ⟨rfl, below⟩ := admitted
    simp only [LogObjects.perform] at done
    split at done
    · cases done
    · rename_i routed
      cases done
      exact ⟨rooted, route_ranked rooted routed below⟩
  | append p level =>
    obtain ⟨rfl, below⟩ := admitted
    simp only [LogObjects.perform] at done
    split at done
    · cases done
    · cases done
      refine ⟨rooted, ?_⟩
      split_ifs
      · exact .guarded below rfl
      · exact .nil after
  | setFormatter l val =>
    obtain ⟨rfl, below⟩ := admitted
    simp only [LogObjects.perform] at done
    split at done
    · cases done
    · rename_i changed
      split at done
      · cases done
      · rename_i pieces
        cases done
        exact ⟨rootedAt_onLogger rooted (fun _ _ => rfl) changed, eachAppender_ranked pieces below fun _ => rfl⟩
  | inherit p val =>
    cases admitted
    simp only [LogObjects.perform] at done
    split_ifs at done
    cases done
    exact ⟨⟨rooted.1.setHeap _, rooted.2⟩, .nil held⟩
  | check l p =>
    obtain ⟨rfl, below⟩ := admitted
    simp only [LogObjects.perform] at done
    split at done
    · cases done
    · cases done
      refine ⟨rooted, .release (.append ?_ (.act rfl (.nil after)))⟩
      split_ifs
      · exact .guarded below rfl
      · exact .nil after
  | adopt l p =>
    cases admitted
    simp only [LogObjects.perform] at done
    split at done
    · cases done
    · split_ifs at done
      cases done
      exact ⟨⟨rooted.1.setHeap _, rooted.2⟩, .nil held⟩
  | push l p =>
    cases admitted
    simp only [LogObjects.perform] at done
    split at done
    · cases done
    · rename_i changed
      cases done
      exact ⟨rootedAt_onLogger rooted (fun _ _ => rfl) changed, .nil held⟩
  | printLogger l =>
    obtain ⟨rfl, below⟩ := admitted
    simp only [LogObjects.perform] at done
    split at done
    · cases done
    · rename_i pieces
      cases done
      exact ⟨rooted, eachAppender_ranked pieces below fun _ => rfl⟩
  | printAll =>
    obtain ⟨rfl, below⟩ := admitted
    cases done
    refine ⟨rooted, .flatMap fun entry _ => .guarded ?_ ⟨rfl, List.forall_mem_cons.mpr ⟨?_, ?_⟩⟩⟩
    · intro h member
      have lowest : h.rank root < 1 := below h member
      have higher : 0 < (Lock.logger entry.2).rank root := (Lock.rank_logger root entry.2).1
      omega
    · exact (Lock.rank_logger root entry.2).2
    · intro h member
      have lowest : h.rank root < 1 := below h member
      omega
  | read =>
    cases admitted
    cases done
    exact ⟨rooted, .nil held⟩

end Perform

/-- In every state that threads reach, a spinlock about to be taken ranks above those
that its thread holds. So no thread waits for itself, and no threads for each other in a
cycle: where one waits, one that holds a lock can go on. -/
theorem locks_ranked [DecidableEq T] {turns : List (Turn T PublicCall)} {events : List OwnSet} {s : LogThreads T}
    (ran : run LogThreads.step turns .create = some (events, s)) :
    (∀ t k rest, (s.thread t).code = .acquire k :: rest →
      (∀ h ∈ (s.thread t).held, h.rank s.data.root < k.rank s.data.root) ∧ k ∉ (s.thread t).held) ∧
    (∀ (waiting : T → Prop) (t : T), waiting t →
      ¬ ∀ t, waiting t → ∃ k u, s.Waits t k ∧ s.owner k = some u ∧ waiting u) ∧
    ∀ t k, s.Waits t k → ∃ u, (∃ k, s.owner k = some u) ∧ ∀ k, ¬ s.Waits u k := by
  have start : (LogThreads.create (T := T)).Disciplined (Lock.rank 0) (admits 0) (RootedAt 0) :=
    LockSystem.idle_disciplined ⟨.create, rfl⟩
  have kept (s : LogThreads T) (turn : Turn T PublicCall) (events : List OwnSet) (next : LogThreads T)
      (before : s.Disciplined (Lock.rank 0) (admits 0) (RootedAt 0))
      (taken : s.step turn = some (events, next)) : next.Disciplined (Lock.rank 0) (admits 0) (RootedAt 0) :=
    before.step (code_ranked 0) (fun _ _ _ _ _ _ _ admitted rooted done => perform_ranked rooted admitted done) taken
  have disciplined := run_invariant _ kept ran start
  have finite : WellFoundedGT (Fin 4) := Finite.to_wellFoundedGT
  rw [disciplined.data.2]
  refine ⟨?_, fun waiting t member => disciplined.no_cycle waiting member, fun t k => disciplined.exists_runner⟩
  intro t k rest ahead
  have above := disciplined.above ahead
  exact ⟨above, fun member => lt_irrefl _ (above k member)⟩

/-- A thread logs while another holds the root logger's lock. -/
theorem locks_ranked_waiting :
    ∃ s : LogThreads Nat, run LogThreads.step
        [.call 0 (.log 0 .info), .step 0, .step 0, .call 1 (.log 0 .info), .step 1] .create = some ([], s) ∧
      s.Waits 1 (.logger 0) ∧ ∃ u, (∃ k, s.owner k = some u) ∧ ∀ k, ¬ s.Waits u k := by
  refine ⟨_, rfl, ?_⟩
  have waits := (@locks_ranked Nat _
    [.call 0 (.log 0 .info), .step 0, .step 0, .call 1 (.log 0 .info), .step 1] _ _ rfl).2.2 1 (.logger 0)
  exact ⟨⟨⟨_, rfl⟩, 0, rfl⟩, waits ⟨⟨_, rfl⟩, 0, rfl⟩⟩

end Sylar
