import Sylar.Library.Files

/-! Streams that are used in order: what many writes and flushes come to, and what the
streams are like if none is opened twice. -/
namespace Library

/-- An open stream works, on a file of its owner; one that is not open holds nothing. -/
structure Stream.Orderly {N α : Type} (owns : N → Prop) (stream : Stream N α) : Prop where
  owned : ∀ name position, stream.target = some (name, position) → owns name
  works : stream.target ≠ none → stream.failed = false
  empty : stream.target = none → stream.buffer = []

theorem Stream.Orderly.closed {N α : Type} (owns : N → Prop) (failed : Bool) :
    (⟨none, failed, []⟩ : Stream N α).Orderly owns :=
  ⟨fun _ _ target => (by cases target), fun isOpen => absurd rfl isOpen, fun _ => rfl⟩

namespace Files

variable {N α : Type} [DecidableEq N] (gap : α)

/-- Texts given to a stream one after the other, each with a flush behind it or not. -/
def writes (p : Nat) (pieces : List (List α × Bool)) : List (StreamOp N α) :=
  pieces.flatMap fun piece => .write p piece.1 :: if piece.2 then [.flush p] else []

/-- What the flushes hand over in all: everything up to the last one, if there is one. -/
def handed : List (List α × Bool) → Option (List α)
  | [] => none
  | (text, flushed) :: rest =>
    match handed rest with
    | some later => some (text ++ later)
    | none => if flushed then some text else none

/-- A stream that is not open takes nothing. -/
theorem allKeep_writes_closed {p : Nat} {s : Files N α} (closed : (s.stream p).target = none)
    (pieces : List (List α × Bool)) : AllKeep gap (writes p pieces) s := by
  induction pieces generalizing s with
  | nil => exact allKeep_nil gap s
  | cons piece rest ih =>
    obtain ⟨text, flushed⟩ := piece
    have refused : s.perform gap (.write p text) = s.setStream p { s.stream p with failed := true } := by
      simp [perform, closed]
    have still : ((s.perform gap (.write p text)).stream p).target = none := by
      rw [refused, setStream_stream, closed]
    change AllKeep gap ((.write p text :: if flushed then [.flush p] else []) ++ writes p rest) s
    rw [List.cons_append, allKeep_cons, allKeep_append]
    refine ⟨trivial, ?_⟩
    cases flushed with
    | false => exact ⟨allKeep_nil gap _, ih still⟩
    | true =>
      have same : (s.perform gap (.write p text)).perform gap (.flush p) = s.perform gap (.write p text) := by
        rw [refused, perform, setStream_stream, if_pos rfl]
      simp only [if_true, after, List.foldl_cons, List.foldl_nil, same]
      exact ⟨(allKeep_cons gap _ _ _).mpr ⟨fun _ => fits_of_closed still _, allKeep_nil gap _⟩, ih still⟩

section Open

variable {p position : Nat} {name : N} {s : Files N α} (target : (s.stream p).target = some (name, position))
  (works : (s.stream p).failed = false)
include target works

/-- A stream that works takes the text into its buffer. -/
theorem write_open (text : List α) :
    (s.perform gap (.write p text)).stream p = { s.stream p with buffer := (s.stream p).buffer ++ text } ∧
      (s.perform gap (.write p text)).content = s.content := by
  have kept : s.perform gap (.write p text) =
      s.setStream p { s.stream p with buffer := (s.stream p).buffer ++ text } := by
    simp [perform, works, target]
  rw [kept]
  exact ⟨setStream_stream .., setStream_content ..⟩

/-- A flush hands over the whole buffer. -/
theorem flush_open :
    (s.perform gap (.flush p)).stream p = ⟨some (name, position + (s.stream p).buffer.length), false, []⟩ ∧
      (s.perform gap (.flush p)).content name = overwrite gap position (s.stream p).buffer (s.content name) := by
  have transferred : s.perform gap (.flush p) = s.transfer gap p (s.stream p).buffer.length := by
    rw [perform, if_neg (by simp [works])]
  rw [transferred, transfer_all gap target, works]
  refine ⟨setStream_stream .., ?_⟩
  rw [setStream_content]
  exact Function.update_self _ _ _

end Open

/-- The texts keep the files just when all that is handed over of them fits. -/
theorem allKeep_writes_iff {p position : Nat} {name : N} {s : Files N α}
    (target : (s.stream p).target = some (name, position)) (works : (s.stream p).failed = false)
    (pieces : List (List α × Bool)) :
    AllKeep gap (writes p pieces) s ↔
      ∀ text, handed pieces = some text → Agrees (s.content name) position ((s.stream p).buffer ++ text) := by
  induction pieces generalizing s position with
  | nil => simp [writes, allKeep_nil, handed]
  | cons piece rest ih =>
    obtain ⟨text, flushed⟩ := piece
    obtain ⟨stream, content⟩ := write_open gap target works text
    have targetWritten : ((s.perform gap (.write p text)).stream p).target = some (name, position) := by
      rw [stream, target]
    have worksWritten : ((s.perform gap (.write p text)).stream p).failed = false := by rw [stream, works]
    change AllKeep gap ((.write p text :: if flushed then [.flush p] else []) ++ writes p rest) s ↔ _
    rw [List.cons_append, allKeep_cons, allKeep_append]
    cases flushed with
    | false =>
      simp only [Keeps, true_and, Bool.false_eq_true, if_false, allKeep_nil, after, List.foldl_nil]
      rw [ih targetWritten worksWritten, stream, content, handed]
      cases handed rest with
      | none | some => simp
    | true =>
      set flushed := (s.perform gap (.write p text)).perform gap (.flush p) with given
      obtain ⟨emptied, handedOver⟩ := flush_open gap targetWritten worksWritten
      rw [← given, stream] at emptied handedOver
      have keeps : (s.perform gap (.write p text)).Keeps (.flush p) ↔
          Agrees (s.content name) position ((s.stream p).buffer ++ text) := by
        simp only [Keeps, worksWritten, true_imp_iff]
        rw [fits_iff targetWritten, stream, content]
      have first : (s.Keeps (.write p text) ∧ AllKeep gap [.flush p] (s.perform gap (.write p text)) ∧
          AllKeep gap (writes p rest) (after gap [.flush p] (s.perform gap (.write p text)))) ↔
          Agrees (s.content name) position ((s.stream p).buffer ++ text) ∧ AllKeep gap (writes p rest) flushed := by
        rw [allKeep_cons, keeps]
        constructor
        · rintro ⟨_, ⟨here, _⟩, behind⟩
          exact ⟨here, behind⟩
        · rintro ⟨here, behind⟩
          exact ⟨trivial, ⟨here, allKeep_nil gap _⟩, behind⟩
      -- the rest begins with an empty buffer behind what has been handed over
      have later := ih (s := flushed) (by rw [emptied]) (by rw [emptied])
      refine first.trans ?_
      rw [later, handed, emptied, handedOver, content]
      cases handed rest with
      | none => simp
      | some later =>
        have whole := agrees_append gap position ((s.stream p).buffer ++ text) later (s.content name)
        rw [List.append_assoc] at whole
        simp only [Option.some.injEq, forall_eq', List.nil_append]
        exact whole.symm

/-- All streams are orderly, each with files of its own. -/
def Orderly (owns : Nat → N → Prop) (s : Files N α) : Prop := ∀ p, (s.stream p).Orderly (owns p)

/-- A stream that is opened is not open, and the file is its own. -/
def Orders (owns : Nat → N → Prop) (s : Files N α) : StreamOp N α → Prop
  | .open p name _ => owns p name ∧ (s.stream p).target = none
  | _ => True

namespace Orderly

variable {gap} {owns : Nat → N → Prop} {s : Files N α}

omit [DecidableEq N] in
theorem initial (content : N → List α) : Orderly owns (Files.initial content) :=
  fun p => .closed (owns p) false

omit [DecidableEq N] in
theorem mono {more : Nat → N → Prop} (orderly : s.Orderly owns) (grows : ∀ p name, owns p name → more p name) :
    s.Orderly more := by
  intro p
  exact ⟨fun name position target => grows p name ((orderly p).owned name position target), (orderly p).works,
    (orderly p).empty⟩

omit [DecidableEq N] in
theorem setStream (orderly : s.Orderly owns) {p : Nat} {stream : Stream N α} (updated : stream.Orderly (owns p)) :
    (s.setStream p stream).Orderly owns := by
  intro q
  by_cases same : q = p
  · rw [same, setStream_stream]
    exact updated
  · have kept : (s.setStream p stream).stream q = s.stream q := Function.update_of_ne same _ _
    rw [kept]
    exact orderly q

omit [DecidableEq N] in
theorem fail (orderly : s.Orderly owns) {p : Nat} (closed : (s.stream p).target = none) :
    (s.setStream p { s.stream p with failed := true }).Orderly owns :=
  orderly.setStream ⟨(orderly p).owned, fun isOpen => absurd closed isOpen, (orderly p).empty⟩

theorem transfer (orderly : s.Orderly owns) (p n : Nat) : (s.transfer gap p n).Orderly owns := by
  cases target : (s.stream p).target with
  | none => simpa [Files.transfer, target] using orderly
  | some place =>
    obtain ⟨name, position⟩ := place
    simp only [Files.transfer, target]
    have kept : (s.setContent name (overwrite gap position ((s.stream p).buffer.take n) (s.content name))).Orderly owns :=
      orderly
    refine kept.setStream ⟨?_, fun _ => (orderly p).works (by simp [target]), fun closed => by cases closed⟩
    rintro name' position' same
    cases same
    exact (orderly p).owned name position target

theorem perform (orderly : s.Orderly owns) (op : StreamOp N α) (orders : s.Orders owns op) :
    (s.perform gap op).Orderly owns := by
  cases op with
  | create p => exact orderly.setStream (.closed (owns p) false)
  | «open» p name opened =>
    obtain ⟨own, closed⟩ := orders
    cases opened with
    | false => simpa [Files.perform] using orderly.fail closed
    | true =>
      simp only [Files.perform, closed, Option.isSome_none, Bool.false_eq_true, Bool.true_eq_false, or_self, if_false]
      have kept : (s.setContent name []).Orderly owns := orderly
      refine kept.setStream ⟨?_, fun _ => rfl, fun _ => rfl⟩
      rintro name' position same
      cases same
      exact own
  | close p =>
    rw [Files.perform]
    split
    · exact (orderly.transfer p _).setStream (.closed (owns p) _)
    · rename_i closed
      exact orderly.fail (by simpa using closed)
  | write p text =>
    rw [Files.perform]
    split
    · rename_i refused
      refine orderly.fail (refused.elim (fun failed => ?_) id)
      by_contra isOpen
      rw [(orderly p).works isOpen] at failed
      cases failed
    · rename_i taken
      rw [not_or] at taken
      exact orderly.setStream ⟨(orderly p).owned, (orderly p).works, fun closed => absurd closed taken.2⟩
  | flush p =>
    rw [Files.perform]
    split
    · exact orderly
    · exact orderly.transfer p _
  | spill p n => exact orderly.transfer p n

theorem after {ops : List (StreamOp N α)} (orderly : s.Orderly owns)
    (orders : ∀ front op back, ops = front ++ op :: back → (Files.after gap front s).Orders owns op) :
    (Files.after gap ops s).Orderly owns := by
  induction ops generalizing s with
  | nil => exact orderly
  | cons op rest ih =>
    refine ih (orderly.perform op (orders [] op rest rfl)) fun front next back split => ?_
    exact orders (op :: front) next back (by rw [split, List.cons_append])

end Orderly

end Files

end Library
