import Sylar.Config.Load
import Sylar.Library.Ranks
import Sylar.Log.Locks

/-! All locks of configuration and logging together. `Lookup` logs, and prints a variable,
under the lock of the registry; `setValue` calls its listeners, of which one configures
the loggers, under the read lock of the variable. Values of all types stand in one type
`V`, and `Ty` names the types. -/
namespace Sylar

open Library Yaml

inductive ConfigLock where
  | registry
  | var (x : Nat)
  | log (lock : Lock)
  deriving DecidableEq

/-- A listener may make log calls, each chosen by what the loggers are at that moment, and
it may throw in the end. It takes no lock of the configuration. -/
structure LogListener (V : Type) where
  calls : V → V → List (LogObjects → List PublicCall)
  throws : V → V → Option Exn

structure SharedVar (Ty V : Type) where
  type : Ty
  val : V
  cbs : Table (Prod.fst : Nat × LogListener V → Nat)

/-- The registry, the variables, the id counters of the types, and the loggers. -/
structure ConfigObjects (Ty V : Type) where
  datas : Table (Prod.fst : Text × Nat → Text)
  heap : List (SharedVar Ty V)
  funId : Ty → Nat
  logs : LogObjects

/-- The rest of a `LoadFromYaml`: names and texts. -/
abbrev Entries := List (Text × Text)

/-- What is done between taking and giving back locks. `rest` is there if `setValue` was
called from `fromString`, in a `LoadFromYaml` that goes on with it. -/
inductive ConfigAction (Ty V : Type) where
  | log (action : LogAction)
  /-- one more piece of a listener -/
  | listen (piece : LogObjects → List PublicCall)
  | lookup (type : Ty) (name : Text) (default : V)
  /-- `ToStr()(m_val)`, for the message of `lookup` or for a caller -/
  | print (x : Nat) (message : Bool)
  /-- a section that changes nothing -/
  | read
  /-- `ListAllMember` -/
  | flatten (root : Node)
  | load (rest : Entries)
  /-- `LookupBase` -/
  | found (name text : Text) (rest : Entries)
  | fromString (x : Nat) (text : Text) (rest : Entries)
  | compare (x : Nat) (v : V) (rest : Option Entries)
  | notify (x : Nat) (v : V) (i : Nat) (rest : Option Entries)
  | store (x : Nat) (v : V)
  | addListener (x : Nat) (cb : LogListener V)
  | delListener (x id : Nat)
  | clearListener (x : Nat)

abbrev ConfigCode (Ty V : Type) := List (GuardInstr ConfigLock (ConfigAction Ty V))

/-- The public calls. `x` is the variable that a pointer leads to. -/
inductive ConfigCall (V Ty : Type) where
  | lookup (type : Ty) (name : Text) (default : V)
  | lookupTyped (type : Ty) (name : Text)
  | lookupBase (name : Text)
  | loadFromYaml (root : Node)
  | getValue (x : Nat)
  | setValue (x : Nat) (v : V)
  | toString (x : Nat)
  | fromString (x : Nat) (text : Text)
  | addListener (x : Nat) (cb : LogListener V)
  | delListener (x id : Nat)
  | getListener (x id : Nat)
  | clearListener (x : Nat)
  | log (call : PublicCall)

mutual
/-- How often `ListAllMember` logs that a name is invalid. -/
def refusedMembers (pre : Text) (node : Node) : Nat :=
  if ValidName pre then
    match node with
    | .map pairs => refusedPairs pre pairs
    | _ => 0
  else 1

def refusedPairs (pre : Text) : List (Node × Node) → Nat
  | [] => 0
  | (key, value) :: rest => refusedMembers (memberName pre key.scalarText) value + refusedPairs pre rest
end

/-- What the second loop of `LoadFromYaml` goes through. -/
def loadEntries (emit : Node → Text) (root : Node) : Entries :=
  ((listAllMember [] root).filter fun entry => entry.1 ≠ []).map fun entry =>
    (entry.1.map Char.toLower, nodeText emit entry.2)

section Code

variable {Ty V : Type}

/-- A section that holds one lock. -/
def section_ (lock : ConfigLock) (access : Access) (action : ConfigAction Ty V) : ConfigCode Ty V :=
  [.take lock access, .act action, .give lock]

/-- Code of the loggers; their locks are spinlocks. -/
def logInstr : LockInstr Lock LogAction → GuardInstr ConfigLock (ConfigAction Ty V)
  | .acquire lock => .take (.log lock) .exclusive
  | .release lock => .give (.log lock)
  | .act action => .act (.log action)

def logCall (call : PublicCall) : ConfigCode Ty V := call.code.map logInstr

/-- A line through the root logger. -/
def logLine (root : Nat) (level : LogLevel) : ConfigCode Ty V := logCall (.log root level)

/-- `setValue` has returned. -/
def resume : Option Entries → ConfigCode Ty V
  | none => []
  | some rest => [.act (.load rest)]

/-- `setValue` has thrown; `fromString` catches standard exceptions and logs them. -/
def raise (root : Nat) (exn : Exn) : Option Entries → ConfigCode Ty V
  | none => []
  | some rest =>
    match exn with
    | .standard => logLine root .error ++ [.act (.load rest)]
    | .other => []

/-- What each call begins with. -/
def ConfigCall.code : ConfigCall V Ty → ConfigCode Ty V
  | .lookup type name default => [.take .registry .exclusive, .act (.lookup type name default)]
  | .lookupTyped _ _ | .lookupBase _ => section_ .registry .shared .read
  | .loadFromYaml root => [.act (.flatten root)]
  | .getValue x | .getListener x _ => section_ (.var x) .shared .read
  | .setValue x v => [.take (.var x) .shared, .act (.compare x v none)]
  | .toString x => [.take (.var x) .shared, .act (.print x false)]
  | .fromString x text => [.act (.fromString x text [])]
  | .addListener x cb => section_ (.var x) .exclusive (.addListener x cb)
  | .delListener x id => section_ (.var x) .exclusive (.delListener x id)
  | .clearListener x => section_ (.var x) .exclusive (.clearListener x)
  | .log call => logCall call

end Code

namespace ConfigObjects

variable {Ty V : Type}

def create (funId : Ty → Nat) : ConfigObjects Ty V := ⟨.empty, [], funId, .create⟩

/-- A log line at the level at which the root logger is asked for it. -/
def line (s : ConfigObjects Ty V) (level : LogLevel) : ConfigCode Ty V := logLine s.logs.root level

/-- The macro evaluates the message only if the root logger takes the level. -/
def takes (s : ConfigObjects Ty V) (level : LogLevel) : Bool :=
  match s.logs.loggers[s.logs.root]? with
  | none => false
  | some logger => logger.level ≤ level

def find? (name : Text) (s : ConfigObjects Ty V) : Option Nat := (s.datas.find? name).map Prod.snd

def updateVar (x : Nat) (change : SharedVar Ty V → SharedVar Ty V) (s : ConfigObjects Ty V) : ConfigObjects Ty V :=
  { s with heap := s.heap.modify x change }

variable [DecidableEq Ty] [BEq V] (emit : Node → Text) (fromStr : Ty → Text → Except Exn V) (toStr : Ty → V → Except Exn Text)

/-- An action, with what it leaves to do; a pointer into nowhere ends everything. -/
def perform : ConfigAction Ty V → ConfigObjects Ty V → Option (List OwnSet × ConfigObjects Ty V × ConfigCode Ty V)
  | .log action, s =>
    match s.logs.perform action with
    | none => none
    | some (events, logs, code) => some (events, { s with logs := logs }, code.map logInstr)
  | .listen piece, s => some ([], s, (piece s.logs).flatMap logCall)
  | .lookup type name default, s =>
    match s.find? name with
    | some x =>
      match s.heap[x]? with
      | none => none
      | some var =>
        if var.type = type then some ([], s, s.line .info ++ [.give .registry])
        else if s.takes .error then some ([], s, [.take (.var x) .shared, .act (.print x true)])
        else some ([], s, [.give .registry])
    | none =>
      if ValidName name then
        some ([], { s with
          datas := s.datas.put (name, s.heap.length)
          heap := s.heap ++ [⟨type, default, .empty⟩] }, [.give .registry])
      else some ([], s, s.line .error ++ [.give .registry])
  | .print x message, s =>
    match s.heap[x]? with
    | none => none
    | some var =>
      let after := if message then s.line .error ++ [.give .registry] else []
      match toStr var.type var.val with
      | .ok _ | .error .other => some ([], s, .give (.var x) :: after)
      | .error .standard => some ([], s, .give (.var x) :: (s.line .error ++ after))
  | .read, s => some ([], s, [])
  | .flatten root, s =>
    some ([], s, (List.range (refusedMembers [] root)).flatMap (fun _ => s.line .error) ++
      [.act (.load (loadEntries emit root))])
  | .load [], s => some ([], s, [])
  | .load ((name, text) :: rest), s => some ([], s, [.take .registry .shared, .act (.found name text rest)])
  | .found name text rest, s =>
    match s.find? name with
    | none => some ([], s, [.give .registry, .act (.load rest)])
    | some x => some ([], s, [.give .registry, .act (.fromString x text rest)])
  | .fromString x text rest, s =>
    match s.heap[x]? with
    | none => none
    | some var =>
      match fromStr var.type text with
      | .ok v => some ([], s, [.take (.var x) .shared, .act (.compare x v (some rest))])
      | .error exn => some ([], s, raise s.logs.root exn (some rest))
  | .compare x v rest, s =>
    match s.heap[x]? with
    | none => none
    | some var =>
      if v == var.val then some ([], s, .give (.var x) :: resume rest)
      else some ([], s, [.act (.notify x v 0 rest)])
  | .notify x v i rest, s =>
    match s.heap[x]? with
    | none => none
    | some var =>
      match var.cbs.entries[i]? with
      | none => some ([], s, .give (.var x) :: (section_ (.var x) .exclusive (.store x v) ++ resume rest))
      | some (_, cb) =>
        some ([], s, (cb.calls var.val v).flatMap (fun piece => [.act (.listen piece)]) ++
          match cb.throws var.val v with
          | none => [.act (.notify x v (i + 1) rest)]
          | some exn => .give (.var x) :: raise s.logs.root exn rest)
  | .store x v, s => some ([], s.updateVar x fun var => { var with val := v }, [])
  | .addListener x cb, s =>
    match s.heap[x]? with
    | none => none
    | some var =>
      let id := (s.funId var.type + 1) % 2 ^ 64
      some ([], { s.updateVar x fun var => { var with cbs := var.cbs.put (id, cb) } with
        funId := Function.update s.funId var.type id }, [])
  | .delListener x id, s => some ([], s.updateVar x fun var => { var with cbs := var.cbs.erase id }, [])
  | .clearListener x, s => some ([], s.updateVar x fun var => { var with cbs := .empty }, [])

end ConfigObjects

/-- registry < variables < the locks of logging -/
def ConfigLock.rank (root : Nat) : ConfigLock → Fin 6
  | .registry => 0
  | .var _ => 1
  | .log lock => Fin.natAdd 2 (lock.rank root)

/-- Locks that log calls may be made under. -/
def Outer (root : Nat) (held : List ConfigLock) : Prop := ∀ h ∈ held, h.rank root < 2

theorem outer_below {root : Nat} {outer : List ConfigLock} (low : Outer root outer) (lock : Lock) :
    ∀ h ∈ outer, h.rank root < (ConfigLock.log lock).rank root := by
  intro h member
  have below := low h member
  simp only [ConfigLock.rank, Fin.lt_def, Fin.val_natAdd] at below ⊢
  omega

section Ranked

variable {Ty V : Type}

/-- The locks an action is performed under, and those that what it leaves to do ends with. -/
def configAdmits (root : Nat) : ConfigAction Ty V → List ConfigLock → List ConfigLock → Prop
  | .log action, held, after => ∃ inner innerAfter outer, held = inner.map .log ++ outer ∧
      after = innerAfter.map .log ++ outer ∧ admits root action inner innerAfter ∧ Outer root outer
  | .listen _, held, after => after = held ∧ Outer root held
  | .lookup _ _ _, held, after | .found _ _ _, held, after => held = [.registry] ∧ after = []
  | .print x message, held, after => held = .var x :: (if message then [.registry] else []) ∧ after = []
  | .flatten _, held, after | .load _, held, after | .fromString _ _ _, held, after => held = [] ∧ after = []
  | .compare x _ _, held, after | .notify x _ _ _, held, after => held = [.var x] ∧ after = []
  | .read, held, after | .store _ _, held, after | .addListener _ _, held, after
  | .delListener _ _, held, after | .clearListener _, held, after => after = held

abbrev ConfigRanked (root : Nat) (held : List ConfigLock) (code : ConfigCode Ty V) (after : List ConfigLock) : Prop :=
  LockOrdered (ConfigLock.rank root) (configAdmits root) held (code.map GuardInstr.plain) after

/-- Code of the loggers keeps its order under locks of the configuration. -/
theorem logInstr_ranked {root : Nat} {inner innerAfter : List Lock} {code : LogCode} {outer : List ConfigLock}
    (ranked : Ranked root inner code innerAfter) (low : Outer root outer) :
    ConfigRanked root (inner.map .log ++ outer) (code.map logInstr : ConfigCode Ty V) (innerAfter.map .log ++ outer) := by
  induction ranked with
  | nil => exact .nil _
  | @acquire k held final rest above _ ih =>
    refine .acquire ?_ ih
    intro h member
    rcases List.mem_append.mp member with member | member
    · obtain ⟨lock, inside, rfl⟩ := List.mem_map.mp member
      have lower := above lock inside
      simp only [ConfigLock.rank, Fin.lt_def, Fin.val_natAdd] at lower ⊢
      omega
    · exact outer_below low k h member
  | release _ ih => exact .release ih
  | act admitted _ ih => exact .act ⟨_, _, _, rfl, rfl, admitted, low⟩ ih

theorem logCall_ranked (root : Nat) (call : PublicCall) {outer : List ConfigLock} (low : Outer root outer) :
    ConfigRanked root outer (logCall call : ConfigCode Ty V) outer :=
  logInstr_ranked (code_ranked root call) low

theorem ranked_append {root : Nat} {held middle after : List ConfigLock} {front back : ConfigCode Ty V}
    (first : ConfigRanked root held front middle) (second : ConfigRanked root middle back after) :
    ConfigRanked root held (front ++ back) after := by
  rw [ConfigRanked, List.map_append]
  exact first.append second

/-- Pieces of code that each end with the locks they began with. -/
theorem ranked_flatMap {root : Nat} {held : List ConfigLock} {code : α → ConfigCode Ty V} {xs : List α}
    (each : ∀ x ∈ xs, ConfigRanked root held (code x) held) : ConfigRanked root held (xs.flatMap code) held := by
  rw [ConfigRanked, List.map_flatMap]
  exact .flatMap each

theorem section_ranked {root : Nat} {lock : ConfigLock} {access : Access} {action : ConfigAction Ty V}
    (admitted : configAdmits root action [lock] [lock]) : ConfigRanked root [] (section_ lock access action) [] :=
  .acquire (by simp) (.act admitted (.release (.nil [])))

theorem resume_ranked (root : Nat) (rest : Option Entries) : ConfigRanked root [] (resume rest : ConfigCode Ty V) [] := by
  cases rest with
  | none => exact .nil []
  | some rest => exact .act ⟨rfl, rfl⟩ (.nil [])

theorem outer_nil (root : Nat) : Outer root [] := by simp [Outer]

theorem raise_ranked (root logRoot : Nat) (exn : Exn) (rest : Option Entries) :
    ConfigRanked root [] (raise logRoot exn rest : ConfigCode Ty V) [] := by
  cases rest with
  | none => exact .nil []
  | some rest =>
    cases exn with
    | standard => exact ranked_append (logCall_ranked root _ (outer_nil root)) (.act ⟨rfl, rfl⟩ (.nil []))
    | other => exact .nil []

/-- Public calls start with no lock held, and end so. -/
theorem configCode_ranked (root : Nat) (call : ConfigCall V Ty) : ConfigRanked root [] call.code [] := by
  cases call with
  | lookup | setValue => exact .acquire (by simp) (.act ⟨rfl, rfl⟩ (.nil []))
  | toString => exact .acquire (by simp) (.act ⟨by simp, rfl⟩ (.nil []))
  | lookupTyped | lookupBase | getValue | addListener | delListener | getListener | clearListener =>
    exact section_ranked rfl
  | loadFromYaml | fromString => exact .act ⟨rfl, rfl⟩ (.nil [])
  | log call => exact logCall_ranked root call (outer_nil root)

theorem outer_registry (root : Nat) : Outer root [.registry] := by simp [Outer, ConfigLock.rank]

theorem outer_var (root x : Nat) : Outer root [.var x] := by simp [Outer, ConfigLock.rank]

theorem var_above_registry (root x : Nat) :
    ∀ h ∈ [ConfigLock.registry], h.rank root < (ConfigLock.var x).rank root := by
  simp [ConfigLock.rank]

/-- Under the registry's lock a line is logged, and the lock is given back. -/
theorem line_registry (root : Nat) (s : ConfigObjects Ty V) (level : LogLevel) :
    ConfigRanked root [.registry] (s.line level ++ [.give .registry]) [] :=
  ranked_append (logCall_ranked root _ (outer_registry root)) (.release (.nil []))

section Perform

variable [DecidableEq Ty] [BEq V] {emit : Node → Text} {fromStr : Ty → Text → Except Exn V}
  {toStr : Ty → V → Except Exn Text} {root : Nat} {s next : ConfigObjects Ty V} {events : List OwnSet}
  {code : ConfigCode Ty V} {held after : List ConfigLock}

/-- What a lookup leaves to do under the registry's lock. -/
theorem lookup_ranked {type : Ty} {name : Text} {default : V}
    (done : s.perform emit fromStr toStr (.lookup type name default) = some (events, next, code)) :
    next.logs = s.logs ∧ ConfigRanked root [.registry] code [] := by
  simp only [ConfigObjects.perform] at done
  split at done
  · split at done
    · cases done
    · split_ifs at done
      · cases done
        exact ⟨rfl, line_registry root s .info⟩
      · cases done
        exact ⟨rfl, .acquire (var_above_registry root _) (.act ⟨by simp, rfl⟩ (.nil []))⟩
      · cases done
        exact ⟨rfl, .release (.nil [])⟩
  · split_ifs at done
    · cases done
      exact ⟨rfl, .release (.nil [])⟩
    · cases done
      exact ⟨rfl, line_registry root s .error⟩

/-- `toString` gives the variable's lock back before it logs. -/
theorem print_ranked {x : Nat} {message : Bool}
    (done : s.perform emit fromStr toStr (.print x message) = some (events, next, code)) :
    next.logs = s.logs ∧ ConfigRanked root (.var x :: (if message then [.registry] else [])) code [] := by
  have below : Outer root (if message then [.registry] else []) := by
    split_ifs
    · exact outer_registry root
    · exact outer_nil root
  have rest : ConfigRanked root (if message then [.registry] else [])
      (if message then s.line .error ++ [.give .registry] else []) [] := by
    split_ifs
    · exact line_registry root s .error
    · exact .nil []
  simp only [ConfigObjects.perform] at done
  split at done
  · cases done
  · split at done
    · cases done
      exact ⟨rfl, .release rest⟩
    · cases done
      exact ⟨rfl, .release rest⟩
    · cases done
      exact ⟨rfl, .release (ranked_append (logCall_ranked root _ below) rest)⟩

/-- A turn of the loop of `setValue`, and what comes after the loop. -/
theorem notify_ranked {x i : Nat} {v : V} {rest : Option Entries}
    (done : s.perform emit fromStr toStr (.notify x v i rest) = some (events, next, code)) :
    next.logs = s.logs ∧ ConfigRanked root [.var x] code [] := by
  simp only [ConfigObjects.perform] at done
  split at done
  · cases done
  · rename_i var found
    split at done
    · cases done
      exact ⟨rfl, .release (ranked_append (section_ranked rfl) (resume_ranked root rest))⟩
    · rename_i id cb entry
      cases done
      refine ⟨rfl, ranked_append (ranked_flatMap fun piece _ => .act ⟨rfl, outer_var root x⟩ (.nil _)) ?_⟩
      split
      · exact .act ⟨rfl, rfl⟩ (.nil [])
      · exact .release (raise_ranked root _ _ rest)

/-- Every action keeps the loggers rooted and leaves code that takes locks by rank. -/
theorem configPerform_ranked (rooted : RootedAt root s.logs) {action : ConfigAction Ty V}
    (admitted : configAdmits root action held after)
    (done : s.perform emit fromStr toStr action = some (events, next, code)) :
    RootedAt root next.logs ∧ ConfigRanked root held code after := by
  cases action with
  | log action =>
    obtain ⟨inner, innerAfter, outer, rfl, rfl, admitted, low⟩ := admitted
    simp only [ConfigObjects.perform] at done
    split at done
    · cases done
    · rename_i performed
      cases done
      obtain ⟨rooted, ranked⟩ := perform_ranked rooted admitted performed
      exact ⟨rooted, logInstr_ranked ranked low⟩
  | listen piece =>
    obtain ⟨rfl, low⟩ := admitted
    cases done
    exact ⟨rooted, ranked_flatMap fun call _ => logCall_ranked root call low⟩
  | lookup type name default =>
    obtain ⟨rfl, rfl⟩ := admitted
    obtain ⟨same, ranked⟩ := lookup_ranked done
    exact ⟨same ▸ rooted, ranked⟩
  | print x message =>
    obtain ⟨rfl, rfl⟩ := admitted
    obtain ⟨same, ranked⟩ := print_ranked done
    exact ⟨same ▸ rooted, ranked⟩
  | flatten node =>
    obtain ⟨rfl, rfl⟩ := admitted
    cases done
    refine ⟨rooted, ranked_append (ranked_flatMap fun _ _ => ?_) (.act ⟨rfl, rfl⟩ (.nil []))⟩
    exact logCall_ranked root _ (outer_nil root)
  | load entries =>
    obtain ⟨rfl, rfl⟩ := admitted
    cases entries with
    | nil =>
      cases done
      exact ⟨rooted, .nil []⟩
    | cons entry rest =>
      cases done
      exact ⟨rooted, .acquire (by simp) (.act ⟨rfl, rfl⟩ (.nil []))⟩
  | found name text rest =>
    obtain ⟨rfl, rfl⟩ := admitted
    simp only [ConfigObjects.perform] at done
    split at done
    · cases done
      exact ⟨rooted, .release (.act ⟨rfl, rfl⟩ (.nil []))⟩
    · cases done
      exact ⟨rooted, .release (.act ⟨rfl, rfl⟩ (.nil []))⟩
  | fromString x text rest =>
    obtain ⟨rfl, rfl⟩ := admitted
    simp only [ConfigObjects.perform] at done
    split at done
    · cases done
    · split at done
      · cases done
        exact ⟨rooted, .acquire (by simp) (.act ⟨rfl, rfl⟩ (.nil []))⟩
      · cases done
        exact ⟨rooted, raise_ranked root _ _ _⟩
  | compare x v rest =>
    obtain ⟨rfl, rfl⟩ := admitted
    simp only [ConfigObjects.perform] at done
    split at done
    · cases done
    · split_ifs at done
      · cases done
        exact ⟨rooted, .release (resume_ranked root rest)⟩
      · cases done
        exact ⟨rooted, .act ⟨rfl, rfl⟩ (.nil [])⟩
  | notify x v i rest =>
    obtain ⟨rfl, rfl⟩ := admitted
    obtain ⟨same, ranked⟩ := notify_ranked done
    exact ⟨same ▸ rooted, ranked⟩
  | addListener x cb =>
    cases admitted
    simp only [ConfigObjects.perform] at done
    split at done
    · cases done
    · cases done
      exact ⟨rooted, .nil held⟩
  | read | store | delListener | clearListener =>
    cases admitted
    cases done
    exact ⟨rooted, .nil held⟩

end Perform

end Ranked

/-- The threads of a program that uses configuration and logging. -/
abbrev ConfigThreads (I Ty V : Type) := GuardSystem I ConfigLock (ConfigAction Ty V) (ConfigObjects Ty V)

namespace ConfigThreads

variable {I Ty V : Type} [DecidableEq I] [DecidableEq Ty] [BEq V]

def step (emit : Node → Text) (fromStr : Ty → Text → Except Exn V) (toStr : Ty → V → Except Exn Text) :
    ConfigThreads I Ty V → Turn I (ConfigCall V Ty) → Option (List OwnSet × ConfigThreads I Ty V) :=
  GuardSystem.step ConfigCall.code (ConfigObjects.perform emit fromStr toStr)

/-- No variables, a new manager, and no thread busy. -/
def create (funId : Ty → Nat) : ConfigThreads I Ty V := .idle (.create funId)

/-- In every state that threads reach with any calls on variables, registry and loggers, a
lock about to be taken is not held by its thread and ranks above those that are; who
writes is alone; and as long as a thread has something to do some thread can go on,
whether the readers-writer locks prefer readers or writers. -/
theorem config_never_stuck (emit : Node → Text) (fromStr : Ty → Text → Except Exn V)
    (toStr : Ty → V → Except Exn Text) (funId : Ty → Nat) {turns : List (Turn I (ConfigCall V Ty))}
    {events : List OwnSet} {s : ConfigThreads I Ty V}
    (ran : run (step emit fromStr toStr) turns (create funId) = some (events, s)) :
    (∀ t k access rest, (s.thread t).code = .take k access :: rest → ∀ h ∈ (s.thread t).locks, h.rank 0 < k.rank 0) ∧
    (∀ t u k access, (k, .exclusive) ∈ (s.thread t).held → (k, access) ∈ (s.thread u).held → u = t) ∧
    ∀ t, (s.thread t).code ≠ [] → ∃ u, s.Runs u := by
  have start : (create (I := I) (V := V) funId).Disciplined (ConfigLock.rank 0) (configAdmits 0)
      (fun s => RootedAt 0 s.logs) := GuardSystem.idle_disciplined ⟨.create, rfl⟩
  have kept (s : ConfigThreads I Ty V) (turn : Turn I (ConfigCall V Ty)) (events : List OwnSet)
      (next : ConfigThreads I Ty V)
      (before : s.Disciplined (ConfigLock.rank 0) (configAdmits 0) (fun s => RootedAt 0 s.logs))
      (taken : step emit fromStr toStr s turn = some (events, next)) :
      next.Disciplined (ConfigLock.rank 0) (configAdmits 0) (fun s => RootedAt 0 s.logs) :=
    before.step (configCode_ranked 0)
      (fun _ _ _ _ _ _ _ admitted rooted done => configPerform_ranked rooted admitted done) taken
  have disciplined := run_invariant _ kept ran start
  have finite : WellFoundedGT (Fin 6) := Finite.to_wellFoundedGT
  exact ⟨fun t k access rest ahead => disciplined.above ahead,
    fun t u k access writes holds => disciplined.writer_alone writes holds,
    fun t active => disciplined.exists_runner active⟩

/-- A thread compares while another one, which has compared, waits to store. -/
def twoSetters : List (Turn Nat (ConfigCall Nat Unit)) :=
  [.call 0 (.lookup () ['a'] 5), .step 0, .step 0, .step 0, .call 0 (.setValue 0 7), .step 0,
    .call 1 (.setValue 0 8), .step 1, .step 1, .step 1, .step 1]

theorem config_never_stuck_twoSetters :
    ∃ s : ConfigThreads Nat Unit Nat,
      run (step (fun _ => []) (fun _ _ => .ok 0) fun _ _ => .ok []) twoSetters (create fun _ => 0) = some ([], s) ∧
      (∃ rest, (s.thread 1).code = .take (.var 0) .exclusive :: rest) ∧ (s.lock (.var 0)).Taken ∧ ∃ u, s.Runs u := by
  have ran : ∃ s : ConfigThreads Nat Unit Nat,
      run (step (fun _ => []) (fun _ _ => .ok 0) fun _ _ => .ok []) twoSetters (create fun _ => 0) = some ([], s) ∧
      (∃ rest, (s.thread 1).code = .take (.var 0) .exclusive :: rest) ∧ (s.lock (.var 0)).Taken :=
    ⟨_, rfl, ⟨_, rfl⟩, 0, .shared, _, rfl, by decide⟩
  obtain ⟨s, ran, ⟨rest, code⟩, taken⟩ := ran
  have active : (s.thread 1).code ≠ [] := by simp [code]
  exact ⟨s, ran, ⟨rest, code⟩, taken, (config_never_stuck _ _ _ _ ran).2.2 1 active⟩

end ConfigThreads

end Sylar
