import Sylar.Config.History

/-! Concurrent `setValue` calls on one variable. A scheduler interleaves their two
critical sections: the read lock of the comparison is given up before the write
lock of the store is taken. -/
namespace Sylar

open Library

/-- Where a call stands: before its comparison, between the sections, or at its end. -/
inductive Phase (T : Type u) where
  | comparing (v : T)
  | storing (v : T)
  | returned
  deriving DecidableEq, Repr

structure Race (T : Type u) (W : Type v) where
  var : ConfigVar T W
  world : W
  calls : List (Phase T)

theorem mem_set_of_ne {calls : List (Phase T)} {call : Nat} {phase : Phase T} {w : T}
    (member : .storing w ∈ calls.set call phase) (other : phase ≠ .storing w) :
    .storing w ∈ calls := by
  rcases List.mem_or_eq_of_mem_set member with member | same
  · exact member
  · exact absurd same.symm other

/-- A critical section of one of the calls. -/
inductive Critical where
  | compare (call : Nat)
  | store (call : Nat)
  deriving DecidableEq, Repr

section Step

variable {T : Type u} {W : Type v} [BEq T]

/-- A call whose listener throws does not return, and neither does the run. -/
def Race.step (s : Race T W) : Critical → Option (List (Event T) × Race T W)
  | .compare call =>
    match s.calls[call]? with
    | some (.comparing v) =>
      match s.var.compareAndNotify v s.world with
      | (events, .returns true world) =>
        some (events, { s with world := world, calls := s.calls.set call (.storing v) })
      | (events, .returns false world) =>
        some (events, { s with world := world, calls := s.calls.set call .returned })
      | _ => none
    | _ => none
  | .store call =>
    match s.calls[call]? with
    | some (.storing v) =>
      some ([.stored v], { s with var := s.var.store v, calls := s.calls.set call .returned })
    | _ => none

/-- All that a section can do. -/
theorem race_cases {s next : Race T W} {label : Critical} {events : List (Event T)}
    (taken : s.step label = some (events, next)) :
    (∃ call v, label = .compare call ∧ s.calls[call]? = some (.comparing v) ∧
      (v == s.var.val) = true ∧ events = [] ∧
      next = { s with calls := s.calls.set call .returned }) ∨
    (∃ call v world, label = .compare call ∧ s.calls[call]? = some (.comparing v) ∧
      (v == s.var.val) = false ∧ events = s.var.notices v ∧
      next = { s with world := world, calls := s.calls.set call (.storing v) }) ∨
    (∃ call v, label = .store call ∧ s.calls[call]? = some (.storing v) ∧
      events = [.stored v] ∧
      next = { s with var := s.var.store v, calls := s.calls.set call .returned }) := by
  cases label with
  | compare call =>
    simp only [Race.step] at taken
    split at taken
    · rename_i v phase
      split at taken
      · rename_i events' world compared
        cases taken
        rcases ConfigVar.compareAndNotify_cases compared with ⟨differs, _⟩ | ⟨_, different, rfl, _⟩
        · cases differs
        · exact .inr (.inl ⟨call, v, world, rfl, phase, different, rfl, rfl⟩)
      · rename_i events' world compared
        cases taken
        rcases ConfigVar.compareAndNotify_cases compared with ⟨_, same, rfl, rfl⟩ | ⟨differs, _⟩
        · exact .inl ⟨call, v, rfl, phase, same, rfl, rfl⟩
        · cases differs
      · cases taken
    · cases taken
  | store call =>
    simp only [Race.step] at taken
    split at taken
    · rename_i v phase
      cases taken
      exact .inr (.inr ⟨call, v, rfl, phase, rfl, rfl⟩)
    · cases taken

/-- A call whose sections run one after the other does what `setValue` does. -/
theorem race_setValue {s : Race T W} {call : Nat} {v : T} {events : List (Event T)}
    {after : ConfigVar T W} {next : W} (phase : s.calls[call]? = some (.comparing v))
    (set : s.var.setValue v s.world = (events, after, .returns () next)) :
    ∃ labels calls, run Race.step labels s = some (events, ⟨after, next, calls⟩) ∧
      calls[call]? = some .returned ∧ ∀ other, other ≠ call → calls[other]? = s.calls[other]? := by
  have inside : call < s.calls.length := (List.getElem?_eq_some_iff.mp phase).1
  unfold ConfigVar.setValue at set
  split at set
  · rename_i compared
    cases set
    refine ⟨[.compare call], s.calls.set call .returned, ?_, ?_, ?_⟩
    · have first : s.step (.compare call) =
          some (events, { s with world := next, calls := s.calls.set call .returned }) := by
        simp [Race.step, phase, compared]
      simp [run, first]
    · simp [inside]
    · intro other different
      exact List.getElem?_set_ne (Ne.symm different)
  · rename_i events' world compared
    cases set
    set middle : Race T W := { s with world := next, calls := s.calls.set call (.storing v) }
    refine ⟨[.compare call, .store call], middle.calls.set call .returned, ?_, ?_, ?_⟩
    · have first : s.step (.compare call) = some (events', middle) := by
        simp [Race.step, phase, compared, middle]
      have second : middle.step (.store call) = some ([.stored v],
          { middle with var := s.var.store v, calls := middle.calls.set call .returned }) := by
        simp [Race.step, middle, inside]
      simp [run, first, second, middle]
    · simp [middle, inside]
    · intro other different
      rw [List.getElem?_set_ne (Ne.symm different)]
      exact List.getElem?_set_ne (Ne.symm different)
  · cases set
  · cases set

/-- A comparison that notifies comes while no other call is between its sections. -/
def Exclusive (s : Race T W) : Critical → Prop
  | .compare call => ∀ v, s.calls[call]? = some (.comparing v) → (v == s.var.val) = false →
      ∀ w, .storing w ∉ s.calls
  | .store _ => True

/-- What a listener has been told, while calls do not overlap: up to the value, or
one pair ahead of it for the single call between its sections. -/
inductive Told (start : T) (s : Race T W) (pairs : List (T × T)) : Prop
  | settled (linked : Linked start pairs s.var.val) (idle : ∀ w, .storing w ∉ s.calls)
  | ahead (call : Nat) (w : T) (past : List (T × T)) (pending : s.calls[call]? = some (.storing w))
      (only : ∀ other x, s.calls[other]? = some (.storing x) → other = call)
      (split : pairs = past ++ [(s.var.val, w)]) (linked : Linked start past s.var.val)
      (different : (w == s.var.val) = false)

variable {start : T} {s next : Race T W} {pairs : List (T × T)} {label : Critical}
  {events : List (Event T)} {id : Nat}

theorem Told.init (s : Race T W) (fresh : ∀ phase ∈ s.calls, ∃ v, phase = .comparing v) :
    Told s.var.val s [] := by
  refine .settled rfl ?_
  intro w member
  obtain ⟨v, same⟩ := fresh _ member
  cases same

/-- A section keeps the listeners. -/
theorem race_ids (taken : s.step label = some (events, next)) : next.var.ids = s.var.ids := by
  rcases race_cases taken with ⟨_, _, _, _, _, _, rfl⟩ | ⟨_, _, _, _, _, _, _, rfl⟩ | ⟨_, _, _, _, _, rfl⟩
  all_goals rfl

theorem Told.step (exclusive : Exclusive s label) (member : id ∈ s.var.ids)
    (told : Told start s pairs) (taken : s.step label = some (events, next)) :
    Told start next (pairs ++ received id events) := by
  rcases race_cases taken with ⟨call, v, rfl, phase, _, rfl, rfl⟩ |
    ⟨call, v, world, rfl, phase, different, rfl, rfl⟩ | ⟨call, v, rfl, phase, rfl, rfl⟩
  · -- an equal value: the call ends in silence
    rw [received_nil, List.append_nil]
    cases told with
    | settled linked idle =>
      refine .settled linked ?_
      intro w inside
      exact idle w (mem_set_of_ne inside (by simp))
    | ahead pendingCall w past pending only split linked different =>
      have apart : pendingCall ≠ call := by
        rintro rfl
        cases phase.symm.trans pending
      refine .ahead pendingCall w past ?_ ?_ split linked different
      · exact (List.getElem?_set_ne (Ne.symm apart)).trans pending
      · intro other x found
        by_cases same : call = other
        · subst same
          simp [List.getElem?_set] at found
        · exact only other x ((List.getElem?_set_ne same).symm.trans found)
  · -- the only notification while no call is pending
    have idle := exclusive v phase different
    rw [received_notified member]
    have linked : Linked start pairs s.var.val := by
      cases told with
      | settled linked _ => exact linked
      | ahead pendingCall w _ pending _ _ _ _ =>
        exact absurd (List.mem_of_getElem? pending) (idle w)
    have inside : call < s.calls.length := (List.getElem?_eq_some_iff.mp phase).1
    refine .ahead call v pairs ?_ ?_ rfl linked different
    · simp [inside]
    · intro other x found
      by_contra apart
      have before := (List.getElem?_set_ne (Ne.symm apart)).symm.trans found
      exact idle x (List.mem_of_getElem? before)
  · -- the pending call stores what it has announced
    have silent : received id [Event.stored v] = [] := rfl
    rw [silent, List.append_nil]
    cases told with
    | settled _ idle => exact absurd (List.mem_of_getElem? phase) (idle v)
    | ahead pendingCall w past pending only split linked different =>
      obtain rfl := only call v phase
      cases phase.symm.trans pending
      refine .settled ?_ ?_
      · rw [split]
        exact linked_append linked (linked_singleton s.var.val v)
      · intro x inside
        obtain ⟨other, found⟩ := List.mem_iff_getElem?.mp inside
        by_cases same : call = other
        · subst same
          simp [List.getElem?_set] at found
        · have before := (List.getElem?_set_ne same).symm.trans found
          exact same (only other x before).symm

/-- In a run without overlap a listener is always told up to the value or one ahead. -/
theorem Told.run {labels : List Critical} {final : Race T W} (told : Told start s [])
    (ran : run Race.step labels s = some (events, final))
    (exclusive : Throughout Race.step Exclusive labels s) (member : id ∈ s.var.ids) :
    Told start final (received id events) ∧ id ∈ final.var.ids := by
  have initial : Told start s (received id []) ∧ id ∈ s.var.ids := ⟨told, member⟩
  refine run_history_throughout Exclusive (fun s past => Told start s (received id past) ∧ id ∈ s.var.ids)
    ?_ ran exclusive initial
  intro s label past events next exclusive before taken
  obtain ⟨told, member⟩ := before
  refine ⟨?_, ?_⟩
  · rw [received_append]
    exact told.step exclusive member taken
  · rw [race_ids taken]
    exact member

/-- A listener has been told a chain of replacements that ends in the value. -/
def Agrees (pairs : List (T × T)) (val : T) : Prop :=
  Chained pairs ∧ ∀ last, pairs.getLast? = some last → last.2 = val

/-- A listener and the store agree after all concurrent calls when no notifying
comparison overlaps another call. Where equality is reflexive this is exact: any
overlap leaves the listener with a history that is not a chain. -/
theorem race_agrees (s : Race T W) (fresh : ∀ phase ∈ s.calls, ∃ v, phase = .comparing v)
    (member : id ∈ s.var.ids) {labels : List Critical} {final : Race T W}
    (ran : run Race.step labels s = some (events, final))
    (ended : ∀ phase ∈ final.calls, phase = .returned) :
    (Throughout Race.step Exclusive labels s → Agrees (received id events) final.var.val) ∧
    ((∀ v : T, (v == v) = true) → Agrees (received id events) final.var.val →
      Throughout Race.step Exclusive labels s) := by
  constructor
  · intro exclusive
    obtain ⟨told, _⟩ := (Told.init s fresh).run ran exclusive member
    cases told with
    | settled linked _ => exact ⟨linked.chained, fun last found => linked.last found⟩
    | ahead call w _ pending _ _ _ _ => cases ended _ (List.mem_of_getElem? pending)
  · intro reflexive agrees
    rcases throughout_or_first Exclusive ran with
      exclusive | ⟨front, label, back, middle, past, rfl, ranFront, exclusive, overlap⟩
    · exact exclusive
    exfalso
    obtain ⟨told, inside⟩ := (Told.init s fresh).run ranFront exclusive member
    obtain ⟨past', middle', later, ranFront', ranBack, rfl⟩ := run_append_eq_some.mp ran
    cases ranFront.symm.trans ranFront'
    obtain ⟨now, next, after, taken, _, rfl⟩ := run_cons_eq_some.mp ranBack
    cases label with
    | store call => exact overlap trivial
    | compare call =>
      simp only [Exclusive, not_forall, not_not] at overlap
      obtain ⟨v, phase, different, w, pending⟩ := overlap
      -- the listener is one pair ahead, and now it hears the stale value again
      have notified : received id now = [(middle.var.val, v)] := by
        rcases race_cases taken with ⟨_, x, same, phase', equal, _⟩ |
          ⟨_, x, _, same, phase', _, rfl, _⟩ | ⟨_, _, same, _⟩
        · cases same
          cases phase.symm.trans phase'
          cases different.symm.trans equal
        · cases same
          cases phase.symm.trans phase'
          exact received_notified inside v
        · cases same
      cases told with
      | settled _ idle => exact idle w pending
      | ahead _ x init _ _ split _ differs =>
        have chained := agrees.1
        rw [received_append, received_append, notified, split, List.append_assoc] at chained
        have broken : x = middle.var.val := Chained.adjacent chained
        rw [broken, reflexive] at differs
        cases differs

end Step

/-- Two calls that both compare before either stores. -/
def overlapping : Race Nat Unit :=
  ⟨⟨['n'], 0, Table.empty.put (1, fun _ _ world => .returns () world)⟩, (), [.comparing 1, .comparing 2]⟩

/-- The listener last hears of 2 while the variable holds 1, and its pairs are no chain. -/
theorem race_disagrees :
    ∃ labels events final, run Race.step labels overlapping = some (events, final) ∧
      (∀ phase ∈ final.calls, phase = .returned) ∧ received 1 events = [(0, 1), (0, 2)] ∧
      final.var.val = 1 ∧ ¬ Agrees (received 1 events) final.var.val := by
  refine ⟨[.compare 0, .compare 1, .store 1, .store 0],
    [.notified 1 0 1, .notified 1 0 2, .stored 2, .stored 1],
    ⟨overlapping.var.store 1, (), [.returned, .returned]⟩, rfl, ?_, rfl, rfl, ?_⟩
  · intro phase member
    simpa using member
  · intro agrees
    cases agrees.2 (0, 2) rfl

/-- One after the other the same two calls agree. -/
theorem race_agrees_apart :
    ∃ events final, run Race.step [.compare 0, .store 0, .compare 1, .store 1] overlapping =
      some (events, final) ∧ Agrees (received 1 events) final.var.val := by
  have ran : run Race.step [.compare 0, .store 0, .compare 1, .store 1] overlapping =
      some ([.notified 1 0 1, .stored 1, .notified 1 1 2, .stored 2],
        ⟨overlapping.var.store 2, (), [.returned, .returned]⟩) := rfl
  refine ⟨_, _, ran, (race_agrees overlapping ?_ (List.mem_singleton_self 1) ran ?_).1 ?_⟩
  · simp [overlapping]
  · simp
  · refine ⟨by simp [Exclusive, overlapping], ?_⟩
    intro _ _ first
    cases first
    refine ⟨trivial, ?_⟩
    intro _ _ second
    cases second
    exact ⟨by simp [Exclusive, overlapping], fun _ _ _ => ⟨trivial, fun _ _ _ => trivial⟩⟩

end Sylar
