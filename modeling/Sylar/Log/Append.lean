import Sylar.Log.File

/-! Whether log files only ever grow: what each call of the program does to them depends on
where the streams stand at that moment and on what the files have there. -/
namespace Sylar

open Library

/-- What a formatter gives to a stream, item by item. -/
def LogFormatter.pieces (clock : Clock) (level : LogLevel) (event : LogEvent) (formatter : LogFormatter) :
    List (Text × Bool) :=
  formatter.items.map fun item => (item.format clock level event, item = .newLine)

theorem LogFormatter.formatTo_writes (p : Nat) (clock : Clock) (level : LogLevel) (event : LogEvent)
    (formatter : LogFormatter) :
    formatter.formatTo p clock level event = Files.writes p (formatter.pieces clock level event) := by
  simp [formatTo, pieces, Files.writes, List.flatMap_map]

/-- The file appender has this file. -/
def Owns (heap : List LogAppender) (p : Nat) (filename : Text) : Prop :=
  ∃ appender, heap[p]? = some appender ∧ appender.sink = .file filename

namespace FileAction

/-- The action loses nothing of any file. A file that is opened is empty, nothing being left
to write to it, and what is handed over to a file is there already or goes on at its end. -/
def Safe (clock : Clock) (files : LogFiles) : FileAction → Prop
  | .construct _ filename opened => opened = true → files.content filename = []
  | .reopen p filename opened =>
    if opened then files.content filename = [] ∧ (files.stream p).buffer = []
    else files.Fits p (files.stream p).buffer
  | .format line level event =>
    match line.sink with
    | .stdout => True
    | .file _ => ∀ text, Files.handed (line.formatter.pieces clock level event) = some text →
        files.Fits line.appender ((files.stream line.appender).buffer ++ text)
  | .destroy p => files.Fits p (files.stream p).buffer
  | .spill p n => files.Fits p ((files.stream p).buffer.take n)

/-- What is opened is the appender's own file. -/
def Own (heap : List LogAppender) : FileAction → Prop
  | .construct p filename _ | .reopen p filename _ => Owns heap p filename
  | _ => True

theorem Own.mono {heap later : List LogAppender} (grows : ∀ p filename, Owns heap p filename → Owns later p filename)
    {action : FileAction} (own : action.Own heap) : action.Own later := by
  cases action with
  | construct p filename | reopen p filename => exact grows p filename own
  | format | destroy | spill => trivial

end FileAction

section Actions

variable {clock : Clock} {heap : List LogAppender} {files : LogFiles}

/-- Streams are opened by the constructor and by `reopen`, when they are not open. -/
theorem orderly_action (orderly : files.Orderly (Owns heap)) {action : FileAction} (own : action.Own heap) :
    (files.after (action.ops clock files)).Orderly (Owns heap) := by
  cases action with
  | construct p filename opened =>
    set created := files.perform '\x00' (.create p) with made
    have closed : (created.perform '\x00' (.close p)).Orderly (Owns heap) :=
      Files.Orderly.perform (orderly.perform (.create p) trivial) (.close p) trivial
    have shut : ((created.perform '\x00' (.close p)).stream p).target = none := by
      simp [made, Files.perform, Stream.new]
    change ((created.perform '\x00' (.close p)).perform '\x00' (.open p filename opened)).Orderly (Owns heap)
    exact closed.perform (.open p filename opened) ⟨own, shut⟩
  | reopen p filename opened =>
    cases failed : (files.stream p).failed with
    | true =>
      have shut : (files.stream p).target = none := by
        by_contra isOpen
        rw [(orderly p).works isOpen] at failed
        cases failed
      simp only [FileAction.ops, reopen, failed, if_true, List.nil_append]
      change (files.perform '\x00' (.open p filename opened)).Orderly (Owns heap)
      exact orderly.perform (.open p filename opened) ⟨own, shut⟩
    | false =>
      simp only [FileAction.ops, reopen, failed, Bool.false_eq_true, if_false]
      have closed : (files.perform '\x00' (.close p)).Orderly (Owns heap) := orderly.perform _ trivial
      change ((files.perform '\x00' (.close p)).perform '\x00' (.open p filename opened)).Orderly (Owns heap)
      refine closed.perform (.open p filename opened) ⟨own, ?_⟩
      cases target : (files.stream p).target with
      | none => simp [Files.perform, target]
      | some => simp [Files.perform, target]
  | format line level event =>
    cases sink : line.sink with
    | stdout =>
      simp only [FileAction.ops, sink]
      exact orderly
    | file =>
      simp only [FileAction.ops, sink]
      refine orderly.after fun front op back split => ?_
      have member : op ∈ line.formatter.formatTo line.appender clock level event := by
        rw [split]
        simp
      obtain ⟨item, _, made⟩ := List.mem_flatMap.mp member
      rcases List.mem_cons.mp made with rfl | flushes
      · trivial
      · split at flushes
        · rw [List.mem_singleton.mp flushes]
          trivial
        · cases flushes
  | destroy p =>
    simp only [FileAction.ops]
    split
    · change (files.perform '\x00' (.close p)).Orderly (Owns heap)
      exact orderly.perform (.close p) trivial
    · exact orderly
  | spill p n =>
    change (files.perform '\x00' (.spill p n)).Orderly (Owns heap)
    exact orderly.perform (.spill p n) trivial

/-- Exactly the safe actions keep every file at each call on the stream. -/
theorem allKeep_action_iff (orderly : files.Orderly (Owns heap)) {action : FileAction} (own : action.Own heap) :
    Files.AllKeep '\x00' (action.ops clock files) files ↔ action.Safe clock files := by
  cases action with
  | construct p filename opened =>
    simp only [FileAction.ops, openFile, Files.allKeep_cons, Files.allKeep_nil, and_true, FileAction.Safe]
    constructor
    · rintro ⟨_, _, kept⟩ success
      have empty := kept (by simp [Files.perform, Stream.new]) success
      simpa [Files.perform, Stream.new] using empty
    · intro empty
      refine ⟨trivial, Files.fits_of_closed (by simp [Files.perform, Stream.new]) _, fun _ success => ?_⟩
      simpa [Files.perform, Stream.new] using empty success
  | reopen p filename opened =>
    cases target : (files.stream p).target with
    | none =>
      have empty := (orderly p).empty target
      have kept : Files.AllKeep '\x00' ((FileAction.reopen p filename opened).ops clock files) files ↔
          (opened = true → files.content filename = []) := by
        cases failed : (files.stream p).failed with
        | true =>
          simp [FileAction.ops, reopen, failed, Files.allKeep_cons, Files.allKeep_nil, Files.Keeps, target]
        | false =>
          simp [FileAction.ops, reopen, failed, Files.allKeep_cons, Files.allKeep_nil, Files.Keeps, target,
            Files.perform, Files.fits_of_closed]
      rw [kept]
      cases opened with
      | true => simp [FileAction.Safe, empty]
      | false => simp [FileAction.Safe, Files.fits_of_closed target]
    | some place =>
      obtain ⟨name, position⟩ := place
      have failed := (orderly p).works (by simp [target])
      obtain ⟨appender, there, sink⟩ := (orderly p).owned name position target
      obtain ⟨same, there', sink'⟩ := own
      cases there.symm.trans there'
      cases sink.symm.trans sink'
      -- what is left is handed over before the file is opened again
      have closed : files.perform '\x00' (.close p) = (files.transfer '\x00' p (files.stream p).buffer.length).setStream p
          ⟨none, (files.stream p).failed, []⟩ := by
        simp [Files.perform, target]
      rw [Files.transfer_all '\x00' target] at closed
      have content : (files.perform '\x00' (.close p)).content filename =
          overwrite '\x00' position (files.stream p).buffer (files.content filename) := by
        rw [closed]
        exact Function.update_self _ _ _
      have shut : ((files.perform '\x00' (.close p)).stream p).target = none := by
        rw [closed, Files.setStream_stream]
      have kept : Files.AllKeep '\x00' ((FileAction.reopen p filename opened).ops clock files) files ↔
          files.Fits p (files.stream p).buffer ∧
            (opened = true → overwrite '\x00' position (files.stream p).buffer (files.content filename) = []) := by
        simp only [FileAction.ops, reopen, failed, Bool.false_eq_true, if_false, List.singleton_append,
          Files.allKeep_cons, Files.allKeep_nil, and_true, Files.Keeps, shut, true_imp_iff, content]
      rw [kept, overwrite_eq_nil_iff]
      cases opened with
      | false => simp [FileAction.Safe]
      | true =>
        simp only [FileAction.Safe, if_true, true_imp_iff, and_iff_right_iff_imp]
        rintro ⟨empty, nothing⟩
        rw [Files.fits_iff target, empty, nothing]
        exact agrees_nil_text [] position
  | format line level event =>
    cases sink : line.sink with
    | stdout => simp [FileAction.ops, FileAction.Safe, sink, Files.allKeep_nil]
    | file =>
      simp only [FileAction.ops, FileAction.Safe, sink, LogFormatter.formatTo_writes]
      cases target : (files.stream line.appender).target with
      | none =>
        refine iff_of_true (Files.allKeep_writes_closed '\x00' target _) fun text _ => ?_
        exact Files.fits_of_closed target _
      | some place =>
        obtain ⟨name, position⟩ := place
        have works := (orderly line.appender).works (by simp [target])
        rw [Files.allKeep_writes_iff '\x00' target works]
        simp only [Files.fits_iff target]
  | destroy p =>
    simp only [FileAction.ops, FileAction.Safe]
    split
    · rw [Files.allKeep_cons]
      exact ⟨And.left, fun fits => ⟨fits, Files.allKeep_nil '\x00' _⟩⟩
    · rename_i closed
      exact iff_of_true (Files.allKeep_nil '\x00' files) (Files.fits_of_closed (by simpa using closed) _)
  | spill p n =>
    rw [FileAction.ops, Files.allKeep_cons]
    exact ⟨And.left, fun fits => ⟨fits, Files.allKeep_nil '\x00' _⟩⟩

/-- Every action is safe in the files that the ones before it leave. -/
def AllSafe (clock : Clock) : List FileAction → LogFiles → Prop
  | [], _ => True
  | action :: rest, files =>
    action.Safe clock files ∧ AllSafe clock rest (files.after (action.ops clock files))

theorem allKeep_actions_iff {actions : List FileAction} (orderly : files.Orderly (Owns heap))
    (own : ∀ action ∈ actions, action.Own heap) :
    Files.AllKeep '\x00' (actionOps clock actions files) files ↔ AllSafe clock actions files := by
  induction actions generalizing files with
  | nil => exact iff_of_true (Files.allKeep_nil '\x00' files) trivial
  | cons action rest ih =>
    obtain ⟨here, later⟩ := List.forall_mem_cons.mp own
    rw [actionOps, Files.allKeep_append, allKeep_action_iff orderly here, AllSafe]
    exact and_congr_right fun _ => ih (orderly_action orderly here) later

theorem orderly_actions {actions : List FileAction} (orderly : files.Orderly (Owns heap))
    (own : ∀ action ∈ actions, action.Own heap) :
    (files.after (actionOps clock actions files)).Orderly (Owns heap) := by
  induction actions generalizing files with
  | nil => exact orderly
  | cons action rest ih =>
    obtain ⟨here, later⟩ := List.forall_mem_cons.mp own
    simp only [actionOps, LogFiles.after, Files.after_append]
    exact ih (orderly_action orderly here) later

end Actions

/-- File appenders stay, with their files. -/
def Grows (s next : Loggers) : Prop := ∀ p filename, Owns s.heap p filename → Owns next.heap p filename

namespace Grows

variable {s middle next : Loggers}

theorem refl (s : Loggers) : Grows s s := fun _ _ owns => owns

theorem trans (first : Grows s middle) (second : Grows middle next) : Grows s next :=
  fun p filename owns => second p filename (first p filename owns)

/-- Formatters do not matter. -/
theorem of_offered (change : Nat → Option LogFormatter → Option LogFormatter)
    (same : ∀ p < s.heap.length, next.heap[p]? = s.heap[p]?.map (LogAppender.offered (change p))) : Grows s next := by
  rintro p filename ⟨appender, there, sink⟩
  have inside : p < s.heap.length := (List.getElem?_eq_some_iff.mp there).1
  refine ⟨appender.offered (change p), by rw [same p inside, there]; rfl, ?_⟩
  rw [← sink]
  unfold LogAppender.offered
  split
  · rfl
  · rfl

theorem configure {daemon : Bool} {i : LogDefine} (done : configure daemon i s = some next) : Grows s next :=
  of_offered _ fun _ inside => configure_heap done inside

theorem applyNew {daemon : Bool} {old : LogDefines} {ds : List LogDefine}
    (done : applyNew daemon old ds s = some next) : Grows s next := by
  induction ds generalizing s with
  | nil =>
    cases done
    exact refl _
  | cons d rest ih =>
    rw [Sylar.applyNew] at done
    split at done
    · split at done
      · cases done
      · rename_i middle configured
        exact (configure configured).trans (ih done)
    · exact ih done

theorem setFormatterText (name text : Text) (s : Loggers) : Grows s (s.setFormatterText name text) := by
  rintro p filename ⟨appender, there, sink⟩
  have kept : ∀ a : LogAppender, a.sink = .file filename →
      (Logger.inherit (some (LogFormatter.create text)) a).sink = .file filename := by
    intro a same
    unfold Logger.inherit
    split
    · exact same
    · exact same
  have heap : (s.setFormatterText name text).heap =
      ((s.getLogger name).1.setFormatterText text s.heap).2 := by
    rw [← s.getLogger_heap name]
    rfl
  unfold Owns
  rw [heap, Logger.setFormatterText]
  split
  · exact ⟨appender, there, sink⟩
  · simp only [Logger.setFormatter]
    by_cases attached : p ∈ (s.getLogger name).1.appenders
    · refine ⟨_, ?_, kept appender sink⟩
      rw [getElem?_modifyAll_mem (inherit_once _) attached, there]
      rfl
    · exact ⟨appender, by rw [getElem?_modifyAll _ attached, there], sink⟩

theorem addAppender (name : Text) (p : Nat) (m : LoggerManager) (inside : p < m.loggers.heap.length) :
    Grows m.loggers (m.addAppender name p inside).loggers := by
  rintro q filename ⟨appender, there, sink⟩
  have heap : (m.addAppender name p inside).loggers.heap =
      m.loggers.heap.modify p (m.loggers.getLogger name).1.adopt := by
    rw [← m.loggers.getLogger_heap name]
    rfl
  have adopted : ((m.loggers.getLogger name).1.adopt appender).sink = .file filename := by
    unfold Logger.adopt
    split
    · exact sink
    · exact sink
  unfold Owns
  rw [heap, List.getElem?_modify, there]
  by_cases same : p = q
  · exact ⟨_, by simp [same], adopted⟩
  · exact ⟨appender, by simp [same], sink⟩

end Grows

/-- The actions that only destroy. -/
theorem own_released {held : List Nat} {s : Loggers} {ps : List Nat} (heap : List LogAppender) :
    ∀ action ∈ released held s ps, action.Own heap := by
  intro action member
  obtain ⟨p, _, rfl⟩ := List.mem_map.mp member
  trivial

theorem own_openNew (opened : Nat → Bool) {heap made : List LogAppender} {base : Nat}
    (there : ∀ i appender, made[i]? = some appender → heap[base + i]? = some appender) :
    ∀ action ∈ openNew opened base made, action.Own heap := by
  induction made generalizing base with
  | nil =>
    intro action member
    cases member
  | cons appender rest ih =>
    have shifted : ∀ i other, rest[i]? = some other → heap[base + 1 + i]? = some other := by
      intro i other found
      rw [Nat.add_assoc, Nat.add_comm 1 i]
      exact there (i + 1) other found
    have later := ih shifted
    rw [openNew]
    cases sink : appender.sink with
    | stdout => exact later
    | file filename =>
      exact List.forall_mem_cons.mpr ⟨⟨appender, there 0 appender rfl, sink⟩, later⟩

theorem own_applyNew {daemon : Bool} {old : LogDefines} {held : List Nat} {opened : Nat → Bool}
    {ds : List LogDefine} {s next : Loggers} (done : applyNew daemon old ds s = some next) :
    ∀ action ∈ applyNewActions daemon old held opened ds s, action.Own next.heap := by
  induction ds generalizing s with
  | nil =>
    intro action member
    cases member
  | cons d rest ih =>
    rw [applyNew] at done
    split at done
    · split at done
      · cases done
      · rename_i isChanged _ middle configured
        have actions : applyNewActions daemon old held opened (d :: rest) s =
            clearing held d.name s ++ openNew opened s.heap.length (middle.heap.drop s.heap.length) ++
              applyNewActions daemon old held opened rest middle := by
          rw [applyNewActions, if_pos isChanged, configured]
        rw [actions, List.forall_mem_append, List.forall_mem_append]
        refine ⟨⟨own_released _, ?_⟩, ih done⟩
        have made : ∀ action ∈ openNew opened s.heap.length (middle.heap.drop s.heap.length), action.Own middle.heap :=
          own_openNew opened fun i appender found => by rwa [List.getElem?_drop] at found
        exact fun action member => (made action member).mono (Grows.applyNew done)
    · rename_i unchanged
      rw [applyNewActions, if_neg unchanged]
      exact ih done

theorem own_removeOld (new : LogDefines) (held : List Nat) (ds : List LogDefine) (s : Loggers)
    (heap : List LogAppender) : ∀ action ∈ removeOldActions new held ds s, action.Own heap := by
  induction ds generalizing s with
  | nil =>
    intro action member
    cases member
  | cons d rest ih =>
    rw [removeOldActions]
    split
    · exact List.forall_mem_append.mpr ⟨own_released heap, ih _⟩
    · exact ih s

theorem own_format (lines : List Line) (level : LogLevel) (event : LogEvent) (heap : List LogAppender) :
    ∀ action ∈ lines.map (FileAction.format · level event), action.Own heap := by
  intro action member
  obtain ⟨line, _, rfl⟩ := List.mem_map.mp member
  trivial

theorem LogSystem.step_grows {daemon : Bool} {s next : LogSystem} {op : LogOp} {events : List (Event LogDefines)}
    (taken : s.step daemon op = some (events, next)) : Grows s.manager.loggers next.manager.loggers := by
  cases op with
  | getLogger name =>
    cases taken
    intro p filename owns
    rwa [← s.manager.loggers.getLogger_heap name] at owns
  | setFormatter name text =>
    cases taken
    exact Grows.setFormatterText name text s.manager.loggers
  | setLogs v =>
    rcases LogSystem.setLogs_cases taken with ⟨_, _, rfl⟩ | ⟨_, _, _, _, done⟩
    · exact Grows.refl _
    · exact .of_offered _ fun p inside => reconfigure_heap s.manager.sound done inside

/-- A listener is called by changes of `logs` only. -/
theorem LogSystem.step_notified {daemon : Bool} {s next : LogSystem} {op : LogOp} {id : Nat} {old new : LogDefines}
    {rest : List (Event LogDefines)} (taken : s.step daemon op = some (.notified id old new :: rest, next)) :
    reconfigure daemon old new s.manager.loggers = some next.manager.loggers := by
  cases op with
  | getLogger name | setFormatter name text => cases taken
  | setLogs v =>
    rcases LogSystem.setLogs_cases taken with ⟨_, silent, _⟩ | ⟨_, told, _, _, done⟩
    · cases silent
    · cases told
      exact done

namespace FileSystem

variable {clock : Clock} {daemon : Bool} {s : FileSystem}

/-- What the program calls does not take a file appender away, and streams are opened on
the files of their appenders. -/
theorem perform_own {call : FileCall} {done : Done} (performed : s.perform daemon call = some done) :
    Grows s.system.manager.loggers done.system.manager.loggers ∧
      ∀ action ∈ done.actions, action.Own done.system.manager.loggers.heap := by
  cases perform_cases daemon performed with
  | changed stepped listened =>
    refine ⟨LogSystem.step_grows stepped, ?_⟩
    have reconfigured := LogSystem.step_notified stepped
    unfold reconfigure at reconfigured
    unfold logIniterActions at listened
    split at listened
    · rename_i lines middle _ applied
      simp only [applied, Option.some.injEq] at reconfigured
      cases listened
      rw [List.forall_mem_append, List.forall_mem_append, ← reconfigured, removeOld_heap]
      exact ⟨⟨own_format lines _ _ _, own_applyNew applied⟩, own_removeOld _ _ _ _ _⟩
    · cases listened
  | unchanged stepped => exact ⟨LogSystem.step_grows stepped, List.forall_mem_nil _⟩
  | newFile =>
    refine ⟨?_, List.forall_mem_singleton.mpr ⟨_, getElem?_allocated.mpr (.inr ⟨rfl, rfl⟩), rfl⟩⟩
    rintro p other ⟨appender, there, sink⟩
    exact ⟨appender, getElem?_allocated.mpr (.inl there), sink⟩
  | release => exact ⟨Grows.refl _, own_released _⟩
  | addAppender inside => exact ⟨Grows.addAppender _ _ s.system.manager inside, List.forall_mem_nil _⟩
  | reopen there sink => exact ⟨Grows.refl _, List.forall_mem_singleton.mpr ⟨_, there, sink⟩⟩
  | log =>
    refine ⟨?_, own_format _ _ _ _⟩
    intro p filename owns
    rwa [← s.system.manager.loggers.getLogger_heap] at owns
  | logOne => exact ⟨Grows.refl _, own_format _ _ _ _⟩
  | spill => exact ⟨Grows.refl _, List.forall_mem_singleton.mpr trivial⟩

/-- All that a call does is safe in the state in which it is made. -/
def Safe (clock : Clock) (daemon : Bool) (s : FileSystem) (call : FileCall) : Prop :=
  ∀ done, s.perform daemon call = some done → AllSafe clock done.actions s.files

/-- Streams are orderly at every point of a run. -/
def Ordered (s : FileSystem) : Prop := s.files.Orderly (Owns s.system.manager.loggers.heap)

theorem step_keep_iff (ordered : s.Ordered) {call : FileCall} {ops : List FileOp} {next : FileSystem}
    (taken : s.step clock daemon call = some (ops, next)) :
    next.Ordered ∧ next.files = s.files.after ops ∧
      (Files.AllKeep '\x00' ops s.files ↔ s.Safe clock daemon call) := by
  obtain ⟨done, performed, rfl, rfl⟩ := step_cases clock daemon taken
  obtain ⟨grows, own⟩ := perform_own performed
  have orderly : s.files.Orderly (Owns done.system.manager.loggers.heap) := ordered.mono grows
  refine ⟨orderly_actions orderly own, rfl, ?_⟩
  rw [allKeep_actions_iff orderly own]
  constructor
  · intro safe done' performed'
    cases performed.symm.trans performed'
    exact safe
  · intro safe
    exact safe done performed

theorem run_keep_iff {calls : List FileCall} {ops : List FileOp} {final : FileSystem} (ordered : s.Ordered)
    (ran : run (step clock daemon) calls s = some (ops, final)) :
    Files.AllKeep '\x00' ops s.files ↔ Throughout (step clock daemon) (Safe clock daemon) calls s := by
  induction calls generalizing s ops with
  | nil =>
    cases ran
    exact iff_of_true (Files.allKeep_nil '\x00' _) trivial
  | cons call calls ih =>
    obtain ⟨first, next, later, taken, rest, rfl⟩ := run_cons_eq_some.mp ran
    obtain ⟨orderedNext, files, safe⟩ := step_keep_iff ordered taken
    rw [throughout_cons taken, Files.allKeep_append, safe]
    apply and_congr_right
    intro _
    have behind := ih orderedNext rest
    rw [files] at behind
    exact behind

def logLine (text : Text) : FileCall := .log Loggers.rootName .info (message text)

/-- What a line logged there is on the stream. -/
def lineOps (text : Text) : List FileOp := [.write 1 text, .write 1 ['\n'], .flush 1]

end FileSystem

end Sylar
