import Mathlib.Data.List.Basic
import Mathlib.Data.List.Induction
import Mathlib.Data.List.Infix
import Mathlib.Logic.Function.Basic

/-! Files written through output streams. Each stream has its own position in the file
that it is open on and a buffer; several streams may be open on one file. -/
namespace Library

/-- `text` written at a position; a gap before the position is filled up. Writing
nothing does nothing. -/
def overwrite (gap : α) (position : Nat) : List α → List α → List α
  | [], content => content
  | text, content =>
    content.take position ++ List.replicate (position - content.length) gap ++ text ++
      content.drop (position + text.length)

theorem overwrite_eq_nil_iff (gap : α) (position : Nat) (text content : List α) :
    overwrite gap position text content = [] ↔ content = [] ∧ text = [] := by
  cases text with
  | nil => simp [overwrite]
  | cons => simp [overwrite]

/-- The file has the text at the position already, or ends in the middle of it. -/
def Agrees (content : List α) (position : Nat) (text : List α) : Prop :=
  content.drop position <+: text ∨ text <+: content.drop position

instance [DecidableEq α] (content : List α) (position : Nat) (text : List α) :
    Decidable (Agrees content position text) :=
  inferInstanceAs (Decidable (_ ∨ _))

@[simp] theorem agrees_nil_text (content : List α) (position : Nat) : Agrees content position [] :=
  .inr (List.nil_prefix)

/-- Behind what is written the file is as before. -/
theorem drop_overwrite (gap : α) (position : Nat) (text content : List α) :
    (overwrite gap position text content).drop (position + text.length) = content.drop (position + text.length) := by
  by_cases nothing : text = []
  · rw [nothing, overwrite]
  · have front : (content.take position ++ List.replicate (position - content.length) gap ++ text).length =
        position + text.length := by
      simp only [List.length_append, List.length_take, List.length_replicate]
      omega
    rw [overwrite, ← front, List.drop_left, front]
    exact nothing

/-- A text in two parts, the second against what the first leaves. -/
theorem agrees_append (gap : α) (position : Nat) (first second content : List α) :
    Agrees content position (first ++ second) ↔ Agrees content position first ∧
      Agrees (overwrite gap position first content) (position + first.length) second := by
  unfold Agrees
  rw [drop_overwrite, ← List.drop_drop]
  generalize content.drop position = rest
  constructor
  · rintro (ends | has)
    · rcases List.prefix_or_prefix_of_prefix ends (List.prefix_append first second) with short | long
      · rw [List.drop_eq_nil_of_le short.length_le]
        exact ⟨.inl short, .inl List.nil_prefix⟩
      · obtain ⟨later, rfl⟩ := long
        rw [List.drop_left]
        exact ⟨.inr (List.prefix_append _ _), .inl ((List.prefix_append_right_inj _).mp ends)⟩
    · obtain ⟨later, rfl⟩ := has
      rw [List.append_assoc, List.drop_left]
      exact ⟨.inr (List.prefix_append _ _), .inr (List.prefix_append _ _)⟩
  · rintro ⟨short | long, behind⟩
    · exact .inl (short.trans (List.prefix_append _ _))
    · obtain ⟨later, rfl⟩ := long
      rw [List.drop_left] at behind
      exact behind.imp (List.prefix_append_right_inj _).mpr (List.prefix_append_right_inj _).mpr

/-- A write extends a file exactly if it stands at its end or past it, or writes the same again. -/
theorem prefix_overwrite_iff (gap : α) (position : Nat) (text content : List α) :
    content <+: overwrite gap position text content ↔ Agrees content position text := by
  by_cases nothing : text = []
  · simp [nothing, overwrite]
  unfold Agrees
  have shape : overwrite gap position text content = content.take position ++
      (List.replicate (position - content.length) gap ++ (text ++ (content.drop position).drop text.length)) := by
    rw [overwrite, List.drop_drop, List.append_assoc, List.append_assoc]
    exact nothing
  have split : content <+: overwrite gap position text content ↔ content.drop position <+:
      List.replicate (position - content.length) gap ++ (text ++ (content.drop position).drop text.length) := by
    rw [shape]
    nth_rewrite 1 [← List.take_append_drop position content]
    exact List.prefix_append_right_inj _
  rw [split]
  by_cases past : content.length ≤ position
  · simp [List.drop_eq_nil_of_le past]
  · have inside : position - content.length = 0 := by omega
    rw [inside, List.replicate_zero, List.nil_append]
    constructor
    · intro extended
      exact List.prefix_or_prefix_of_prefix extended (List.prefix_append _ _)
    · rintro (covered | again)
      · exact covered.trans (List.prefix_append _ _)
      · obtain ⟨rest, same⟩ := again
        rw [← same, List.drop_left]

/-- An output stream: the file it is open on with its position there, whether an
operation failed, and what it has not handed over yet. -/
structure Stream (N α : Type) where
  target : Option (N × Nat)
  failed : Bool
  buffer : List α

/-- A stream that has just been constructed. -/
def Stream.new : Stream N α := ⟨none, false, []⟩

/-- Files by name and streams by number. A missing file counts as an empty one. -/
structure Files (N α : Type) where
  content : N → List α
  stream : Nat → Stream N α

/-- The calls on a stream. `opened` is whether the file can be opened; `spill` hands
over a part of the buffer, which a stream may do at any time. -/
inductive StreamOp (N α : Type) where
  | create (p : Nat)
  | open (p : Nat) (name : N) (opened : Bool)
  | close (p : Nat)
  | write (p : Nat) (text : List α)
  | flush (p : Nat)
  | spill (p n : Nat)

/-- The text that a call gives to its stream. -/
def StreamOp.text : StreamOp N α → List α
  | .write _ text => text
  | _ => []

namespace Files

variable {N α : Type}

/-- No stream is open. -/
def initial (content : N → List α) : Files N α := ⟨content, fun _ => .new⟩

/-- Every file's content is a prefix of its content in a later state. -/
def Extends (s next : Files N α) : Prop := ∀ name, s.content name <+: next.content name

theorem Extends.trans {s middle next : Files N α} (first : s.Extends middle) (second : middle.Extends next) :
    s.Extends next := fun name => (first name).trans (second name)

theorem Extends.of_eq {s next : Files N α} (same : next.content = s.content) : s.Extends next := by
  intro name
  rw [same]

variable [DecidableEq N] (gap : α)

def setStream (p : Nat) (stream : Stream N α) (s : Files N α) : Files N α :=
  { s with stream := Function.update s.stream p stream }

omit [DecidableEq N] in
@[simp] theorem setStream_stream (p : Nat) (stream : Stream N α) (s : Files N α) :
    (s.setStream p stream).stream p = stream :=
  Function.update_self _ _ _

omit [DecidableEq N] in
@[simp] theorem setStream_content (p : Nat) (stream : Stream N α) (s : Files N α) :
    (s.setStream p stream).content = s.content := rfl

def setContent (name : N) (content : List α) (s : Files N α) : Files N α :=
  { s with content := Function.update s.content name content }

/-- The first `n` characters of the buffer go to the file. -/
def transfer (p n : Nat) (s : Files N α) : Files N α :=
  match (s.stream p).target with
  | none => s
  | some (name, position) =>
    let text := (s.stream p).buffer.take n
    (s.setContent name (overwrite gap position text (s.content name))).setStream p
      { s.stream p with
        target := some (name, position + text.length)
        buffer := (s.stream p).buffer.drop n }

/-- The whole buffer goes to the file. -/
theorem transfer_all {p position : Nat} {name : N} {s : Files N α}
    (target : (s.stream p).target = some (name, position)) :
    s.transfer gap p (s.stream p).buffer.length =
      (s.setContent name (overwrite gap position (s.stream p).buffer (s.content name))).setStream p
        ⟨some (name, position + (s.stream p).buffer.length), (s.stream p).failed, []⟩ := by
  simp only [transfer, target, List.take_length, List.drop_length]

/-- Opening truncates; it fails on a stream that is open already. -/
def perform (s : Files N α) : StreamOp N α → Files N α
  | .create p => s.setStream p .new
  | .open p name opened =>
    if (s.stream p).target.isSome ∨ opened = false then s.setStream p { s.stream p with failed := true }
    else (s.setContent name []).setStream p ⟨some (name, 0), false, []⟩
  | .close p =>
    if (s.stream p).target.isSome then
      (s.transfer gap p (s.stream p).buffer.length).setStream p ⟨none, (s.stream p).failed, []⟩
    else s.setStream p { s.stream p with failed := true }
  | .write p text =>
    if (s.stream p).failed ∨ (s.stream p).target = none then s.setStream p { s.stream p with failed := true }
    else s.setStream p { s.stream p with buffer := (s.stream p).buffer ++ text }
  | .flush p => if (s.stream p).failed then s else s.transfer gap p (s.stream p).buffer.length
  | .spill p n => s.transfer gap p n

/-- A text that a stream hands over ends up behind the file's content, or is there already. -/
def Fits (s : Files N α) (p : Nat) (text : List α) : Prop :=
  ∀ name position, (s.stream p).target = some (name, position) → Agrees (s.content name) position text

omit [DecidableEq N] in
theorem fits_of_closed {s : Files N α} {p : Nat} (closed : (s.stream p).target = none) (text : List α) :
    s.Fits p text := by
  intro name position target
  cases closed.symm.trans target

omit [DecidableEq N] in
theorem fits_iff {s : Files N α} {p position : Nat} {name : N} (target : (s.stream p).target = some (name, position))
    (text : List α) : s.Fits p text ↔ Agrees (s.content name) position text := by
  constructor
  · intro fits
    exact fits name position target
  · intro agrees other at_ same
    cases target.symm.trans same
    exact agrees

/-- No file loses what it has: only empty files are opened, and what is handed over fits. -/
def Keeps (s : Files N α) : StreamOp N α → Prop
  | .open p name opened => (s.stream p).target = none → opened = true → s.content name = []
  | .close p => s.Fits p (s.stream p).buffer
  | .flush p => (s.stream p).failed = false → s.Fits p (s.stream p).buffer
  | .spill p n => s.Fits p ((s.stream p).buffer.take n)
  | .create _ | .write _ _ => True

instance [DecidableEq α] (s : Files N α) (p : Nat) (text : List α) : Decidable (s.Fits p text) :=
  match target : (s.stream p).target with
  | none => isTrue (fits_of_closed target text)
  | some (_, _) => decidable_of_iff _ (fits_iff target text).symm

instance [DecidableEq α] (s : Files N α) : (op : StreamOp N α) → Decidable (s.Keeps op)
  | .open p name opened =>
    inferInstanceAs (Decidable ((s.stream p).target = none → opened = true → s.content name = []))
  | .close p => inferInstanceAs (Decidable (s.Fits p (s.stream p).buffer))
  | .flush p => inferInstanceAs (Decidable ((s.stream p).failed = false → s.Fits p (s.stream p).buffer))
  | .spill p n => inferInstanceAs (Decidable (s.Fits p ((s.stream p).buffer.take n)))
  | .create _ | .write _ _ => isTrue trivial

/-- Only the file named is changed. -/
theorem extends_setContent_iff {name : N} {content : List α} {s next : Files N α}
    (written : next.content = Function.update s.content name content) :
    s.Extends next ↔ s.content name <+: content := by
  constructor
  · intro extended
    have here := extended name
    rwa [written, Function.update_self] at here
  · intro extended other
    rw [written]
    by_cases same : other = name
    · rw [same, Function.update_self]
      exact extended
    · rw [Function.update_of_ne same]

theorem extends_transfer_iff (s next : Files N α) (p n : Nat)
    (same : next.content = (s.transfer gap p n).content) :
    s.Extends next ↔ s.Fits p ((s.stream p).buffer.take n) := by
  cases target : (s.stream p).target with
  | none =>
    have kept : next.content = s.content := by rw [same, transfer, target]
    exact iff_of_true (.of_eq kept) (fits_of_closed target _)
  | some at_position =>
    obtain ⟨name, position⟩ := at_position
    simp only [transfer, target] at same
    rw [extends_setContent_iff same, prefix_overwrite_iff, fits_iff target]

/-- One call keeps the files exactly if it opens no file with content and hands over what fits. -/
theorem perform_extends_iff (s : Files N α) (op : StreamOp N α) :
    s.Extends (s.perform gap op) ↔ s.Keeps op := by
  cases op with
  | create p => exact iff_of_true (.of_eq rfl) trivial
  | «open» p name opened =>
    by_cases fails : (s.stream p).target.isSome ∨ opened = false
    · rw [perform, if_pos fails]
      refine iff_of_true (.of_eq rfl) fun closed success => ?_
      simp [closed, success] at fails
    · rw [perform, if_neg fails, extends_setContent_iff rfl, List.prefix_nil]
      simp only [not_or, Option.isSome_iff_ne_none, not_not, Bool.not_eq_false] at fails
      simp [Keeps, fails.1, fails.2]
  | close p =>
    by_cases isOpen : (s.stream p).target.isSome
    · rw [perform, if_pos isOpen]
      refine (extends_transfer_iff gap s _ p (s.stream p).buffer.length rfl).trans ?_
      rw [List.take_length]
      rfl
    · rw [perform, if_neg isOpen]
      exact iff_of_true (.of_eq rfl) (fits_of_closed (by simpa using isOpen) _)
  | write p text =>
    refine iff_of_true (.of_eq ?_) trivial
    rw [perform]
    split <;> rfl
  | flush p =>
    cases failed : (s.stream p).failed with
    | true => simp [perform, Keeps, failed, Extends]
    | false =>
      simp only [perform, Keeps, failed, Bool.false_eq_true, if_false, true_imp_iff]
      refine (extends_transfer_iff gap s _ p (s.stream p).buffer.length rfl).trans ?_
      rw [List.take_length]
  | spill p n => exact extends_transfer_iff gap s _ p n rfl

/-- The files after some calls. -/
def after (ops : List (StreamOp N α)) (s : Files N α) : Files N α := ops.foldl (perform gap) s

@[simp] theorem after_append (front back : List (StreamOp N α)) (s : Files N α) :
    after gap (front ++ back) s = after gap back (after gap front s) :=
  List.foldl_append

/-- At every point every file's content is a prefix of its content at every later point. -/
def AppendOnly (ops : List (StreamOp N α)) (s : Files N α) : Prop :=
  ∀ front between back, ops = front ++ between ++ back →
    (after gap front s).Extends (after gap (front ++ between) s)

/-- Every call keeps the files in the state in which it is made. -/
def AllKeep (ops : List (StreamOp N α)) (s : Files N α) : Prop :=
  ∀ front op back, ops = front ++ op :: back → (after gap front s).Keeps op

theorem allKeep_nil (s : Files N α) : AllKeep gap [] s := by
  intro front op back split
  simp at split

theorem allKeep_cons (op : StreamOp N α) (ops : List (StreamOp N α)) (s : Files N α) :
    AllKeep gap (op :: ops) s ↔ s.Keeps op ∧ AllKeep gap ops (s.perform gap op) := by
  constructor
  · intro keep
    refine ⟨keep [] op ops rfl, fun front later back split => ?_⟩
    exact keep (op :: front) later back (by rw [split, List.cons_append])
  · rintro ⟨first, rest⟩ front later back split
    cases front with
    | nil =>
      obtain ⟨rfl, _⟩ := List.cons.inj split
      exact first
    | cons other front =>
      obtain ⟨rfl, tail⟩ := List.cons.inj split
      exact rest front later back tail

theorem allKeep_append (front back : List (StreamOp N α)) (s : Files N α) :
    AllKeep gap (front ++ back) s ↔ AllKeep gap front s ∧ AllKeep gap back (after gap front s) := by
  induction front generalizing s with
  | nil => simp [allKeep_nil, after]
  | cons op rest ih =>
    rw [List.cons_append, allKeep_cons, allKeep_cons, ih, and_assoc]
    rfl

/-- The calls keep every file exactly if each of them does. -/
theorem appendOnly_iff (ops : List (StreamOp N α)) (s : Files N α) :
    AppendOnly gap ops s ↔ AllKeep gap ops s := by
  constructor
  · intro only front op back split
    have extended := only front [op] back (by rw [split, List.append_assoc, List.singleton_append])
    rw [after_append] at extended
    exact (perform_extends_iff gap _ op).mp extended
  · intro keep front between back split
    induction between using List.reverseRecOn generalizing back with
    | nil => exact .of_eq (by rw [List.append_nil])
    | append_singleton between op ih =>
      have here : ops = front ++ between ++ op :: back := by
        rw [split, ← List.append_assoc, List.append_assoc, List.singleton_append]
      have last := (perform_extends_iff gap _ op).mpr (keep (front ++ between) op back here)
      rw [← List.append_assoc, after_append gap (front ++ between) [op]]
      exact (ih (op :: back) here).trans last

instance decidableAllKeep [DecidableEq α] : (ops : List (StreamOp N α)) → (s : Files N α) →
    Decidable (AllKeep gap ops s)
  | [], s => isTrue (allKeep_nil gap s)
  | op :: ops, s =>
    have := decidableAllKeep ops (s.perform gap op)
    decidable_of_iff (s.Keeps op ∧ AllKeep gap ops (s.perform gap op)) (allKeep_cons gap op ops s).symm

end Files

end Library
