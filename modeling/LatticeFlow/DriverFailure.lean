import LatticeFlow.Driver

/-!
# Exceptions in the Event Loop

`zmq::poll` throws when the poll fails, and the `Run` of an event handler may throw. There is
no `catch` in `Driver::Run` (`click/driver.cc`): the exception leaves it, and its local
variables are destroyed. At both places the handlers that were registered when the iteration
began are in the local variables; the members hold what has been registered since.

After an exception the driver is as before the first call of `Run`: handlers can be
registered, and `Run` can be called again. Here a handler may be registered any number of
times.

## Main results

* `IterationInv`: what the members hold during an iteration.
* `keepsHandlers_iff`: when no handler is lost.
-/

namespace LatticeFlow

/-- What moves a driver with a poll and handlers that may throw. -/
inductive FailingAction (H : Type)
  | drive (a : DriverAction H)
  /-- `RegisterEventHandler(h)`, also of a handler that has been registered before. -/
  | register (h : H)
  /-- An iteration begins, and `zmq::poll` throws. -/
  | pollThrows
  /-- The `Run` of the handler at the iterator throws. -/
  | handlerThrows
  deriving DecidableEq, Repr

/-- The action is an exception that leaves `Driver::Run`. -/
def FailingAction.throws {H : Type} : FailingAction H → Bool
  | .pollThrows | .handlerThrows => true
  | _ => false

/-- The exception leaves `Driver::Run`; its local variables are gone. -/
def Driver.unwind {H : Type} (d : Driver H) : Driver H :=
  { d with phase := .setup }

/-- The driver, with exceptions. -/
def failingDriver {H : Type} [DecidableEq H] (handler : EventHandler H) :
    Machine (Driver H) (FailingAction H) where
  init := {}
  step d
    | .drive a => (driver handler).step d a
    | .register h =>
        match d.phase with
        | .setup | .running _ _ => some (d.registerEventHandler handler h)
        | _ => none
    | .pollThrows =>
        -- The members have been moved into the local variables and cleared.
        match d.phase with
        | .head => some { d with event_handlers_ := [], pollitems_ := [] }.unwind
        | _ => none
    | .handlerThrows =>
        match d.phase with
        | .running _ _ => some d.unwind
        | _ => none

/-- What an exception should leave behind: members that are aligned, with every handler that
has been registered but for the one-off handlers that have run. -/
structure KeepsHandlers {H : Type} (handler : EventHandler H) (d : Driver H) : Prop where
  aligned : Aligned handler d.event_handlers_ d.pollitems_
  kept : ∀ h, Live handler d.trace h → h ∈ d.event_handlers_

/-- The handlers that have been registered since the iteration began; at the head of the loop
it is about to begin. -/
def Driver.registeredInIteration {H : Type} (d : Driver H) : List H :=
  match d.phase with
  | .head => []
  | _ => registrations (sincePoll d.trace)

/-! ### The members during an iteration -/

section Iteration

variable {H : Type} {handler : EventHandler H} {d d' : Driver H}

/-- In an iteration after its poll. -/
def DriverPhase.inIteration : DriverPhase H → Bool
  | .loop _ | .running _ _ => true
  | _ => false

/-- **During an iteration** the members hold what has been registered in it. -/
structure IterationInv (handler : EventHandler H) (d : Driver H) : Prop where
  members : d.event_handlers_ = registrations (sincePoll d.trace)
  aligned : Aligned handler d.event_handlers_ d.pollitems_

/-- A registration during an iteration. -/
theorem IterationInv.register (h : IterationInv handler d) (x : H) :
    IterationInv handler (d.registerEventHandler handler x) where
  members := by
    simp only [Driver.registerEventHandler]
    rw [sincePoll_append _ _ rfl, registrations_append, ← h.members]
    rfl
  aligned := h.aligned.append rfl

/-- At the beginning of an iteration the members are empty. -/
theorem IterationInv.poll (revents : List (BitVec 16)) :
    IterationInv handler (d.beginIteration revents) where
  members := by
    simp only [Driver.beginIteration, sincePoll_polled]
    rfl
  aligned := rfl

/-- The inner loop changes the members at its end only. -/
theorem IterationInv.turn {l : DriverLocals H} (h : IterationInv handler d)
    (hphase : (d.turn handler l).phase.inIteration = true) :
    IterationInv handler (d.turn handler l) := by
  simp only [Driver.turn] at hphase ⊢
  split at hphase
  · cases hphase
  · split at hphase
    · cases hphase
    · split_ifs at hphase ⊢
      · refine ⟨?_, h.aligned⟩
        rw [sincePoll_append _ _ rfl, sincePoll_append _ _ rfl]
        simpa using h.members
      · exact ⟨h.members, h.aligned⟩

variable [DecidableEq H]

/-- What a step with exceptions can be. -/
theorem failingDriver_step_cases {a : FailingAction H}
    (hs : (failingDriver handler).step d a = some d') :
    (∃ b, a = .drive b ∧ (driver handler).step d b = some d') ∨
    (∃ h, a = .register h ∧ (d.phase = .setup ∨ ∃ l b, d.phase = .running l b) ∧
      d' = d.registerEventHandler handler h) ∨
    (a = .pollThrows ∧ d.phase = .head ∧
      d' = { d with event_handlers_ := [], pollitems_ := [] }.unwind) ∨
    (a = .handlerThrows ∧ (∃ l b, d.phase = .running l b) ∧ d' = d.unwind) := by
  cases a with
  | drive b => exact .inl ⟨b, rfl, hs⟩
  | register h =>
      simp only [failingDriver] at hs
      split at hs
      · rename_i hphase
        exact .inr (.inl ⟨h, rfl, .inl hphase, (Option.some.inj hs).symm⟩)
      · rename_i l b hphase
        exact .inr (.inl ⟨h, rfl, .inr ⟨l, b, hphase⟩, (Option.some.inj hs).symm⟩)
      · cases hs
  | pollThrows =>
      simp only [failingDriver] at hs
      split at hs
      · rename_i hphase
        exact .inr (.inr (.inl ⟨rfl, hphase, (Option.some.inj hs).symm⟩))
      · cases hs
  | handlerThrows =>
      simp only [failingDriver] at hs
      split at hs
      · rename_i l b hphase
        exact .inr (.inr (.inr ⟨rfl, ⟨l, b, hphase⟩, (Option.some.inj hs).symm⟩))
      · cases hs

/-- A step of the driver keeps the invariant. -/
theorem IterationInv.drive {b : DriverAction H}
    (hinv : d.phase.inIteration = true → IterationInv handler d)
    (hs : (driver handler).step d b = some d') (hphase : d'.phase.inIteration = true) :
    IterationInv handler d' := by
  obtain ⟨h, -, -, -, rfl⟩ | ⟨-, -, rfl⟩ | ⟨revents, -, -, -, rfl⟩ | ⟨l, -, hl, rfl⟩ |
    ⟨l, b, -, hl, rfl⟩ := driver_step_cases hs
  · exact (hinv hphase).register h
  · cases hphase
  · exact .poll revents
  · exact (hinv (by rw [hl]; rfl)).turn hphase
  · obtain ⟨hmembers, haligned⟩ := hinv (by rw [hl]; rfl)
    exact ⟨hmembers, haligned⟩

/-- **The invariant** holds in every iteration of every run. -/
theorem iterationInv_of_reachable (hr : (failingDriver handler).Reachable d)
    (hphase : d.phase.inIteration = true) : IterationInv handler d := by
  revert hphase
  refine hr.invariant (I := fun d => d.phase.inIteration = true → IterationInv handler d)
    (fun h => by cases h) ?_
  intro d a d' _ hinv hs hphase
  obtain ⟨b, -, hs⟩ | ⟨h, -, -, rfl⟩ | ⟨-, -, rfl⟩ | ⟨-, -, rfl⟩ := failingDriver_step_cases hs
  · exact .drive hinv hs hphase
  · exact (hinv hphase).register h
  · cases hphase
  · cases hphase

/-! ### What an exception leaves behind -/

/-- **When no handler is lost.** In any run, with any exceptions before: when an exception
leaves `Driver::Run`, the members are aligned and hold every handler that has been registered,
but for the one-off handlers that have run, if and only if all of these handlers have been
registered in the iteration that fails. -/
theorem keepsHandlers_iff {a : FailingAction H} (hr : (failingDriver handler).Reachable d)
    (ha : a.throws = true) (hs : (failingDriver handler).step d a = some d') :
    KeepsHandlers handler d' ↔
      ∀ h, Live handler d.trace h → h ∈ d.registeredInIteration := by
  obtain ⟨b, rfl, -⟩ | ⟨h, rfl, -⟩ | ⟨-, hphase, rfl⟩ | ⟨-, ⟨l, b, hphase⟩, rfl⟩ :=
    failingDriver_step_cases hs
  · cases ha
  · cases ha
  · simp only [Driver.registeredInIteration, hphase]
    exact ⟨fun h => h.kept, fun h => ⟨rfl, h⟩⟩
  · obtain ⟨hmembers, haligned⟩ := iterationInv_of_reachable hr (by rw [hphase]; rfl)
    simp only [Driver.registeredInIteration, hphase]
    rw [← hmembers]
    exact ⟨fun h => h.kept, fun h => ⟨haligned, h⟩⟩

end Iteration

/-- A one-off handler runs and registers another one. -/
def oneOffRegisters : List (FailingAction ℕ) :=
  [.drive (.register 0), .drive .callRun, .drive (.poll [1]), .drive .turn, .drive (.register 2)]

/-- If the handler then throws, the driver has the new handler, and nothing else is to be
kept. -/
theorem keepsHandlers_iff_one_off : ∃ d d',
    (failingDriver zeroIsOneOff).run (failingDriver zeroIsOneOff).init oneOffRegisters = some d ∧
      (failingDriver zeroIsOneOff).step d .handlerThrows = some d' ∧
      d'.event_handlers_ = [2] ∧ KeepsHandlers zeroIsOneOff d' := by
  refine ⟨_, _, rfl, rfl, rfl, ?_⟩
  have hrun : (failingDriver zeroIsOneOff).run (failingDriver zeroIsOneOff).init oneOffRegisters =
      some _ := rfl
  refine (keepsHandlers_iff (a := .handlerThrows) (Machine.reachable_of_run hrun) rfl rfl).mpr ?_
  rintro h ⟨hreg, hnot⟩
  have hh : h ∈ [0, 2] := hreg
  obtain rfl | rfl : h = 0 ∨ h = 2 := by simpa using hh
  · exact absurd ⟨rfl, by decide⟩ hnot
  · decide

/-- Two handlers are registered, and the first poll throws. -/
def firstPollThrows : List (FailingAction ℕ) :=
  [.drive (.register 0), .drive (.register 1), .drive .callRun, .pollThrows]

/-- Two handlers are registered and ready, and the first one throws. -/
def firstHandlerThrows : List (FailingAction ℕ) :=
  [.drive (.register 0), .drive (.register 1), .drive .callRun, .drive (.poll [1, 1]),
    .drive .turn, .handlerThrows]

/-- After `firstPollThrows`, and after `firstHandlerThrows`, the driver has lost handler `1`,
which has not run. -/
theorem exception_loses_handlers :
    (∃ d, (failingDriver zeroIsOneOff).run (failingDriver zeroIsOneOff).init firstPollThrows =
        some d ∧ d.event_handlers_ = [] ∧ Live zeroIsOneOff d.trace 1 ∧
      ¬ KeepsHandlers zeroIsOneOff d) ∧
    ∃ d, (failingDriver zeroIsOneOff).run (failingDriver zeroIsOneOff).init firstHandlerThrows =
        some d ∧ d.event_handlers_ = [] ∧ Live zeroIsOneOff d.trace 1 ∧
      ¬ KeepsHandlers zeroIsOneOff d := by
  have hlost : ∀ d : Driver ℕ, d.event_handlers_ = [] → Live zeroIsOneOff d.trace 1 →
      ¬ KeepsHandlers zeroIsOneOff d := by
    intro d hnil hlive hkeeps
    have hmem := hkeeps.kept 1 hlive
    rw [hnil] at hmem
    cases hmem
  refine ⟨⟨_, rfl, rfl, ?_, hlost _ rfl ?_⟩, ⟨_, rfl, rfl, ?_, hlost _ rfl ?_⟩⟩ <;>
    exact ⟨by decide, by decide⟩

end LatticeFlow
