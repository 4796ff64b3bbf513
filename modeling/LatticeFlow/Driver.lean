import Mathlib.Data.List.DropRight
import Mathlib.Data.List.Infix
import Mathlib.Data.List.Nodup
import LatticeFlow.Lib.History
import LatticeFlow.Lib.Machine

/-!
# The Event Loop

`Driver` of `click/driver.cc` polls the items of its event handlers and runs those that are
ready. Handlers may register further handlers while they run. `Driver::Run` therefore moves
its two vectors into local variables, walks them with two iterators, erases the one-off
handlers it has run from both, and puts what is left behind the handlers registered in the
meantime.

Handlers are objects of an arbitrary type `H`. What a handler does while it runs is left
open: between the call of its `Run` and its return it may register any handlers, each of
which has not been registered before. What `zmq::poll` reports is left open as well. A
failed assertion is a state of its own.

The driver keeps a trace of its calls, which the code does not have. Statements about one
iteration refer to the part of the trace since the last poll.

## Main results

* `DriverInv`: the handlers held by the driver and those that still have to be run in this
  iteration, in every phase of the loop.
* `driver_dispatches`: what holds in every state of every run.
-/

namespace LatticeFlow

/-! ### Handlers and poll items -/

/-- `zmq::pollitem_t`. -/
structure PollItem where
  socket : ℕ
  fd : ℤ
  events : BitVec 16
  revents : BitVec 16
  deriving DecidableEq, Repr

/-- `pollitem.events & pollitem.revents`, as a condition. -/
def PollItem.ready (p : PollItem) : Bool :=
  p.events &&& p.revents ≠ 0

/-- What a poll item asks for: all of it but the answer of the last poll. -/
def PollItem.watched (p : PollItem) : ℕ × ℤ × BitVec 16 :=
  (p.socket, p.fd, p.events)

/-- `zmq::poll`: the answers are stored in the items. -/
def poll (pollitems : List PollItem) (revents : List (BitVec 16)) : List PollItem :=
  pollitems.zipWith (fun p r => { p with revents := r }) revents

/-- `EventHandler`, without `Run`: `GetPollitem` is called once for each object, when it is
registered. -/
structure EventHandler (H : Type) where
  isOneOff : H → Bool
  getPollitem : H → PollItem

/-! ### The driver -/

/-- A call made by the driver. -/
inductive DriverEvent (H : Type)
  /-- `RegisterEventHandler(h)`, which calls `h->GetPollitem()`. -/
  | registered (h : H)
  /-- `zmq::poll` has returned; the handlers whose items are ready, with these items. -/
  | polled (ready : List (H × PollItem))
  /-- `h->IsOneOff()`. -/
  | asked (h : H)
  /-- `h->Run(pollitem)`. -/
  | ran (h : H) (pollitem : PollItem)
  deriving DecidableEq, Repr

/-- The local variables of `Driver::Run`; an iterator is a position. -/
structure DriverLocals (H : Type) where
  event_handlers : List H
  pollitems : List PollItem
  event_handlers_it : ℕ := 0
  pollitems_it : ℕ := 0
  deriving DecidableEq, Repr

/-- Where the driver is. -/
inductive DriverPhase (H : Type)
  /-- `Run` has not been called. -/
  | setup
  /-- At the head of the outer loop. -/
  | head
  /-- At the head of the inner loop. -/
  | loop (l : DriverLocals H)
  /-- In the `Run` of the handler at the iterator. -/
  | running (l : DriverLocals H) (is_one_off : Bool)
  /-- The assertion has failed. -/
  | failed
  deriving DecidableEq, Repr

/-- A `Driver`, with the trace of its calls. -/
structure Driver (H : Type) where
  event_handlers_ : List H := []
  pollitems_ : List PollItem := []
  phase : DriverPhase H := .setup
  trace : List (DriverEvent H) := []
  deriving DecidableEq, Repr

/-- What moves the driver. -/
inductive DriverAction (H : Type)
  /-- Before `Run`, or from a handler that is running: `RegisterEventHandler(h)`. -/
  | register (h : H)
  /-- `Run` is called. -/
  | callRun
  /-- The beginning of an iteration of the outer loop, with what `zmq::poll` reports. -/
  | poll (revents : List (BitVec 16))
  /-- The inner loop goes on, to the call of a handler, the next item, or its end. -/
  | turn
  /-- The handler returns. -/
  | handlerReturns
  deriving DecidableEq, Repr

section History

variable {H : Type}

/-- The handlers registered, in order. -/
def registrations (trace : List (DriverEvent H)) : List H :=
  trace.filterMap fun
    | .registered h => some h
    | _ => none

/-- The handlers run, in order, with the items passed to them. -/
def runs (trace : List (DriverEvent H)) : List (H × PollItem) :=
  trace.filterMap fun
    | .ran h p => some (h, p)
    | _ => none

/-- The handlers run, in order. -/
def handlersRun (trace : List (DriverEvent H)) : List H :=
  (runs trace).map Prod.fst

/-- Whether the call is a poll. -/
def DriverEvent.isPoll : DriverEvent H → Bool
  | .polled _ => true
  | _ => false

/-- The handler whose method is called. -/
def DriverEvent.handler : DriverEvent H → Option H
  | .registered h => some h
  | .polled _ => none
  | .asked h => some h
  | .ran h _ => some h

/-- The calls since the last poll. -/
def sincePoll (trace : List (DriverEvent H)) : List (DriverEvent H) :=
  trace.rtakeWhile fun e => !e.isPoll

/-- What was ready at the last poll; nothing before the first one. -/
def lastReady (trace : List (DriverEvent H)) : List (H × PollItem) :=
  trace.foldl (fun ready e =>
    match e with
    | .polled ready => ready
    | _ => ready) []

end History

section Locals

variable {H : Type}

/-- `pollitems_it++; event_handlers_it++`. -/
def DriverLocals.advance (l : DriverLocals H) : DriverLocals H :=
  { l with
    event_handlers_it := l.event_handlers_it + 1
    pollitems_it := l.pollitems_it + 1 }

/-- Both vectors without the elements at the iterators, which then point to the elements
behind these. -/
def DriverLocals.erase (l : DriverLocals H) : DriverLocals H :=
  { l with
    event_handlers := l.event_handlers.eraseIdx l.event_handlers_it
    pollitems := l.pollitems.eraseIdx l.pollitems_it }

end Locals

namespace Driver

variable {H : Type} (handler : EventHandler H)

/-- `Driver::RegisterEventHandler`. It is assumed that `GetPollitem` does not throw, as it does
not in any handler of the source. -/
def registerEventHandler (d : Driver H) (h : H) : Driver H :=
  { d with
    event_handlers_ := d.event_handlers_ ++ [h]
    pollitems_ := d.pollitems_ ++ [handler.getPollitem h]
    trace := d.trace ++ [.registered h] }

/-- An iteration up to the inner loop: the members are moved into the local variables and
cleared, and the local items are polled. -/
def beginIteration (d : Driver H) (revents : List (BitVec 16)) : Driver H :=
  let pollitems := LatticeFlow.poll d.pollitems_ revents
  { event_handlers_ := []
    pollitems_ := []
    phase := .loop { event_handlers := d.event_handlers_, pollitems := pollitems }
    trace := d.trace ++
      [.polled ((d.event_handlers_.zip pollitems).filter fun r => r.2.ready)] }

/-- The end of an iteration: what is left is put behind what has been registered. -/
def endIteration (d : Driver H) (l : DriverLocals H) : Driver H :=
  { d with
    event_handlers_ := d.event_handlers_ ++ l.event_handlers
    pollitems_ := d.pollitems_ ++ l.pollitems
    phase := .head }

/-- The inner loop, from its condition to the call of a handler or back to its condition. -/
def turn (d : Driver H) (l : DriverLocals H) : Driver H :=
  match l.pollitems[l.pollitems_it]? with
  | none => d.endIteration l
  | some pollitem =>
      match l.event_handlers[l.event_handlers_it]? with
      | none => { d with phase := .failed }
      | some h =>
          if pollitem.ready then
            { d with
              phase := .running l (handler.isOneOff h)
              trace := d.trace ++ [.asked h] ++ [.ran h pollitem] }
          else
            { d with phase := .loop l.advance }

/-- The inner loop after the call of a handler. -/
def handlerReturned (d : Driver H) (l : DriverLocals H) (is_one_off : Bool) : Driver H :=
  { d with phase := .loop (if is_one_off then l.erase else l.advance) }

end Driver

/-- The driver and what it runs with. -/
def driver {H : Type} [DecidableEq H] (handler : EventHandler H) :
    Machine (Driver H) (DriverAction H) where
  init := {}
  step d
    | .register h =>
        if h ∈ registrations d.trace then none
        else
          match d.phase with
          | .setup | .running _ _ => some (d.registerEventHandler handler h)
          | _ => none
    | .callRun =>
        match d.phase with
        | .setup => some { d with phase := .head }
        | _ => none
    | .poll revents =>
        match d.phase with
        | .head =>
            if revents.length = d.pollitems_.length then some (d.beginIteration revents)
            else none
        | _ => none
    | .turn =>
        match d.phase with
        | .loop l => some (d.turn handler l)
        | _ => none
    | .handlerReturns =>
        match d.phase with
        | .running l is_one_off => some (d.handlerReturned l is_one_off)
        | _ => none

/-! ### Traces -/

section Traces

variable {H : Type} (trace : List (DriverEvent H)) {h : H} {p : PollItem}

@[simp] theorem registrations_append (t u : List (DriverEvent H)) :
    registrations (t ++ u) = registrations t ++ registrations u :=
  List.filterMap_append

@[simp] theorem runs_append (t u : List (DriverEvent H)) : runs (t ++ u) = runs t ++ runs u :=
  List.filterMap_append

@[simp] theorem registrations_nil : registrations ([] : List (DriverEvent H)) = [] := rfl

@[simp] theorem registrations_registered :
    registrations (.registered h :: trace) = h :: registrations trace := rfl

@[simp] theorem registrations_polled (ready : List (H × PollItem)) :
    registrations (.polled ready :: trace) = registrations trace := rfl

@[simp] theorem registrations_asked :
    registrations (.asked h :: trace) = registrations trace := rfl

@[simp] theorem registrations_ran :
    registrations (.ran h p :: trace) = registrations trace := rfl

@[simp] theorem runs_nil : runs ([] : List (DriverEvent H)) = [] := rfl

@[simp] theorem runs_registered : runs (.registered h :: trace) = runs trace := rfl

@[simp] theorem runs_polled (ready : List (H × PollItem)) :
    runs (.polled ready :: trace) = runs trace := rfl

@[simp] theorem runs_asked : runs (.asked h :: trace) = runs trace := rfl

@[simp] theorem runs_ran : runs (.ran h p :: trace) = (h, p) :: runs trace := rfl

/-- Nothing has happened since a poll that comes last. -/
theorem sincePoll_polled (ready : List (H × PollItem)) :
    sincePoll (trace ++ [DriverEvent.polled ready]) = [] := by
  simp [sincePoll, DriverEvent.isPoll]

/-- Any other event has happened since the last poll. -/
theorem sincePoll_append (e : DriverEvent H) (he : e.isPoll = false) :
    sincePoll (trace ++ [e]) = sincePoll trace ++ [e] := by
  simp [sincePoll, he]

/-- A poll that comes last says who is ready. -/
theorem lastReady_polled (ready : List (H × PollItem)) :
    lastReady (trace ++ [DriverEvent.polled ready]) = ready := by
  simp [lastReady]

/-- Any other event leaves that as it is. -/
theorem lastReady_append (e : DriverEvent H) (he : e.isPoll = false) :
    lastReady (trace ++ [e]) = lastReady trace := by
  cases e with
  | polled ready => cases he
  | registered h => simp [lastReady]
  | asked h => simp [lastReady]
  | ran h p => simp [lastReady]

end Traces

/-! ### What is held and what is pending -/

section Dispatch

variable {H : Type} {handler : EventHandler H} {trace : List (DriverEvent H)}
  {held held' : List H} {pending : List (H × PollItem)} {h : H} {p : PollItem}

/-- A handler that has to be polled for: it has been registered, and it has not been run if
it is one-off. -/
def Live (handler : EventHandler H) (trace : List (DriverEvent H)) (h : H) : Prop :=
  h ∈ registrations trace ∧ ¬ (handler.isOneOff h = true ∧ h ∈ handlersRun trace)

/-- The call is not on a one-off handler that has been run. -/
def CallsLive (handler : EventHandler H) (past : List (DriverEvent H)) (e : DriverEvent H) :
    Prop :=
  ∀ h, e.handler = some h → handler.isOneOff h = true → h ∉ handlersRun past

/-- A driver with such a trace holds `held`, and it still has to run `pending` before it
polls again. -/
structure DispatchInv (handler : EventHandler H) (trace : List (DriverEvent H))
    (held : List H) (pending : List (H × PollItem)) : Prop where
  registered_nodup : (registrations trace).Nodup
  held_nodup : held.Nodup
  mem_held : ∀ h, h ∈ held ↔ Live handler trace h
  ran_registered : ∀ h ∈ handlersRun trace, h ∈ registrations trace
  ready_eq : runs (sincePoll trace) ++ pending = lastReady trace
  ready_nodup : ((lastReady trace).map Prod.fst).Nodup
  ready_registered : ∀ r ∈ lastReady trace, r.1 ∈ registrations trace
  ready_old : ∀ r ∈ lastReady trace, r.1 ∉ registrations (sincePoll trace)
  reported : ∀ ready, .polled ready ∈ trace → ∀ r ∈ ready, r ∈ runs trace ∨ r ∈ pending
  calls : EachAfter (CallsLive handler) trace

namespace DispatchInv

/-- At the beginning nobody has been registered and nothing is held. -/
theorem init : DispatchInv handler [] [] [] where
  registered_nodup := List.nodup_nil
  held_nodup := List.nodup_nil
  mem_held h := by simp [Live, registrations]
  ran_registered h hh := by simp [handlersRun, runs] at hh
  ready_eq := rfl
  ready_nodup := List.nodup_nil
  ready_registered r hr := by simp [lastReady] at hr
  ready_old r hr := by simp [lastReady] at hr
  reported ready hpoll := by simp at hpoll
  calls := EachAfter.nil

/-- The order of what is held does not matter. -/
theorem perm (hinv : DispatchInv handler trace held pending) (hperm : held.Perm held') :
    DispatchInv handler trace held' pending :=
  { hinv with
    held_nodup := hperm.nodup_iff.mp hinv.held_nodup
    mem_held := fun h => hperm.mem_iff.symm.trans (hinv.mem_held h) }

/-- A handler is registered. -/
theorem register (hinv : DispatchInv handler trace held pending)
    (hnew : h ∉ registrations trace) :
    DispatchInv handler (trace ++ [DriverEvent.registered h]) (held ++ [h]) pending := by
  have hnotRun : h ∉ handlersRun trace := fun hmem => hnew (hinv.ran_registered h hmem)
  have hnotHeld : h ∉ held := fun hmem => hnew ((hinv.mem_held h).mp hmem).1
  have hrun : handlersRun (trace ++ [DriverEvent.registered h]) = handlersRun trace := by
    simp [handlersRun]
  have hsince := sincePoll_append trace (.registered h) rfl
  have hready := lastReady_append trace (.registered h) rfl
  refine ⟨?_, ?_, ?_, ?_, ?_, ?_, ?_, ?_, ?_, ?_⟩
  · simpa [List.nodup_append] using ⟨hinv.registered_nodup, fun _ hx hxh => hnew (hxh ▸ hx)⟩
  · simpa [List.nodup_append] using ⟨hinv.held_nodup, fun _ hx hxh => hnotHeld (hxh ▸ hx)⟩
  · intro x
    rw [Live, hrun, List.mem_append, hinv.mem_held, Live, registrations_append, List.mem_append]
    by_cases hx : x = h
    · subst hx
      simp [hnotRun]
    · simp [hx]
  · intro x hx
    rw [hrun] at hx
    rw [registrations_append]
    exact List.mem_append_left _ (hinv.ran_registered x hx)
  · rw [hsince, hready, runs_append, runs_registered, runs_nil, List.append_nil]
    exact hinv.ready_eq
  · rw [hready]
    exact hinv.ready_nodup
  · intro r hr
    rw [hready] at hr
    rw [registrations_append]
    exact List.mem_append_left _ (hinv.ready_registered r hr)
  · intro r hr
    rw [hready] at hr
    rw [hsince, registrations_append, registrations_registered, List.mem_append,
      registrations_nil, List.mem_singleton]
    rintro (hold | rfl)
    · exact hinv.ready_old r hr hold
    · exact hnew (hinv.ready_registered r hr)
  · intro ready hpoll r hr
    have hpoll : .polled ready ∈ trace := by simpa using hpoll
    simpa using hinv.reported ready hpoll r hr
  · refine hinv.calls.append ?_
    intro x hx _
    obtain rfl : h = x := Option.some.inj hx
    exact hnotRun

/-- `zmq::poll` returns. -/
theorem poll (hinv : DispatchInv handler trace held []) {ready : List (H × PollItem)}
    (hready : (ready.map Prod.fst).Sublist held) :
    DispatchInv handler (trace ++ [DriverEvent.polled ready]) held ready := by
  have hrun : handlersRun (trace ++ [DriverEvent.polled ready]) = handlersRun trace := by
    simp [handlersRun]
  have hregs : registrations (trace ++ [DriverEvent.polled ready]) = registrations trace := by
    simp
  refine ⟨?_, hinv.held_nodup, ?_, ?_, ?_, ?_, ?_, ?_, ?_, ?_⟩
  · rw [hregs]
    exact hinv.registered_nodup
  · intro x
    rw [Live, hrun, hregs]
    exact hinv.mem_held x
  · rw [hrun, hregs]
    exact hinv.ran_registered
  · rw [sincePoll_polled, lastReady_polled]
    rfl
  · rw [lastReady_polled]
    exact hready.nodup hinv.held_nodup
  · intro r hr
    rw [lastReady_polled] at hr
    rw [hregs]
    exact ((hinv.mem_held r.1).mp (hready.subset (List.mem_map_of_mem hr))).1
  · intro r _
    rw [sincePoll_polled]
    exact List.not_mem_nil
  · intro ready' hpoll r hr
    rcases List.mem_append.mp hpoll with hpoll | hpoll
    · -- Nothing is left of the iterations before.
      have hran := hinv.reported ready' hpoll r hr
      rw [or_iff_left List.not_mem_nil] at hran
      exact .inl (by simpa using hran)
    · obtain rfl : ready' = ready := by simpa using hpoll
      exact .inr hr
  · exact hinv.calls.append (fun x hx => by cases hx)

/-- A handler is asked and run. If it is one-off it is held no longer. -/
theorem run (hinv : DispatchInv handler trace held ((h, p) :: pending)) (hh : h ∈ held)
    (hone : handler.isOneOff h = true → held.Perm (h :: held'))
    (hperm : handler.isOneOff h = false → held = held') :
    DispatchInv handler (trace ++ [DriverEvent.asked h] ++ [DriverEvent.ran h p]) held'
      pending := by
  have hlive : handler.isOneOff h = true → h ∉ handlersRun trace :=
    fun hoff hran => ((hinv.mem_held h).mp hh).2 ⟨hoff, hran⟩
  have hregs : registrations (trace ++ [DriverEvent.asked h] ++ [DriverEvent.ran h p]) =
      registrations trace := by
    simp
  have hrun : handlersRun (trace ++ [DriverEvent.asked h] ++ [DriverEvent.ran h p]) =
      handlersRun trace ++ [h] := by
    simp [handlersRun]
  have hsince : sincePoll (trace ++ [DriverEvent.asked h] ++ [DriverEvent.ran h p]) =
      sincePoll trace ++ [DriverEvent.asked h] ++ [DriverEvent.ran h p] := by
    rw [sincePoll_append _ _ rfl, sincePoll_append _ _ rfl]
  have hready : lastReady (trace ++ [DriverEvent.asked h] ++ [DriverEvent.ran h p]) =
      lastReady trace := by
    rw [lastReady_append _ _ rfl, lastReady_append _ _ rfl]
  refine ⟨?_, ?_, ?_, ?_, ?_, ?_, ?_, ?_, ?_, ?_⟩
  · rw [hregs]
    exact hinv.registered_nodup
  · cases hoff : handler.isOneOff h with
    | true => exact (List.nodup_cons.mp ((hone hoff).nodup_iff.mp hinv.held_nodup)).2
    | false => exact hperm hoff ▸ hinv.held_nodup
  · intro x
    rw [Live, hregs, hrun, List.mem_append, List.mem_singleton]
    cases hoff : handler.isOneOff h with
    | true =>
        have hnodup := List.nodup_cons.mp ((hone hoff).nodup_iff.mp hinv.held_nodup)
        by_cases hx : x = h
        · subst hx
          simp [hnodup.1, hoff]
        · have hmem := (hone hoff).mem_iff (a := x)
          rw [List.mem_cons, or_iff_right hx] at hmem
          rw [← hmem, hinv.mem_held, Live, or_iff_left hx]
    | false =>
        rw [← hperm hoff, hinv.mem_held, Live]
        by_cases hx : x = h
        · subst hx
          simp [hoff]
        · rw [or_iff_left hx]
  · intro x hx
    rw [hrun, List.mem_append, List.mem_singleton] at hx
    rw [hregs]
    rcases hx with hx | rfl
    · exact hinv.ran_registered x hx
    · exact ((hinv.mem_held x).mp hh).1
  · rw [hsince, hready, ← hinv.ready_eq]
    simp
  · rw [hready]
    exact hinv.ready_nodup
  · rw [hready, hregs]
    exact hinv.ready_registered
  · rw [hready, hsince]
    simpa using hinv.ready_old
  · intro ready hpoll r hr
    have hpoll : .polled ready ∈ trace := by simpa using hpoll
    rcases hinv.reported ready hpoll r hr with hran | hpending
    · exact .inl (by simp [hran])
    · rcases List.mem_cons.mp hpending with rfl | hpending
      · exact .inl (by simp)
      · exact .inr hpending
  · refine (hinv.calls.append ?_).append ?_
    · intro x hx hoff
      obtain rfl : h = x := Option.some.inj hx
      exact hlive hoff
    · intro x hx hoff
      obtain rfl : h = x := Option.some.inj hx
      simpa [handlersRun] using hlive hoff

end DispatchInv

end Dispatch

/-! ### The two vectors and their iterators -/

section Walk

variable {H : Type} {hs hs₁ hs₂ : List H} {ps ps₁ ps₂ : List PollItem} {h : H} {p : PollItem}

/-- The items are those of the handlers, one for each and in the same order. -/
def Aligned (handler : EventHandler H) (hs : List H) (ps : List PollItem) : Prop :=
  ps.map PollItem.watched = hs.map fun h => (handler.getPollitem h).watched

/-- There are as many items as handlers. -/
theorem Aligned.length_eq {handler : EventHandler H} (h : Aligned handler hs ps) :
    ps.length = hs.length := by
  simpa using congrArg List.length h

/-- Aligned lists may be put one behind the other. -/
theorem Aligned.append {handler : EventHandler H} (h₁ : Aligned handler hs₁ ps₁)
    (h₂ : Aligned handler hs₂ ps₂) : Aligned handler (hs₁ ++ hs₂) (ps₁ ++ ps₂) := by
  rw [Aligned, List.map_append, List.map_append, h₁, h₂]

/-- The lists are aligned at their heads and behind them. -/
theorem aligned_cons {handler : EventHandler H} :
    Aligned handler (h :: hs) (p :: ps) ↔
      p.watched = (handler.getPollitem h).watched ∧ Aligned handler hs ps := by
  simp [Aligned]

/-- Polling changes the answers only. -/
theorem map_watched_poll {revents : List (BitVec 16)} (hlen : revents.length = ps.length) :
    (poll ps revents).map PollItem.watched = ps.map PollItem.watched := by
  induction ps generalizing revents with
  | nil => simp [poll]
  | cons p ps ih =>
      cases revents with
      | nil => simp at hlen
      | cons r rs =>
          simp only [List.length_cons, Nat.add_right_cancel_iff] at hlen
          simp only [List.map_cons, ← ih hlen]
          rfl

/-- A poll changes the answers only, so that the lists stay aligned. -/
theorem Aligned.poll {handler : EventHandler H} (h : Aligned handler hs ps)
    {revents : List (BitVec 16)} (hlen : revents.length = ps.length) :
    Aligned handler hs (poll ps revents) :=
  (map_watched_poll hlen).trans h

/-- Both iterators between the parts of their vectors. -/
def DriverLocals.walk (hs₁ hs₂ : List H) (ps₁ ps₂ : List PollItem) : DriverLocals H where
  event_handlers := hs₁ ++ hs₂
  pollitems := ps₁ ++ ps₂
  event_handlers_it := hs₁.length
  pollitems_it := ps₁.length

/-- What is ready from the iterators on. -/
def DriverLocals.remaining (l : DriverLocals H) : List (H × PollItem) :=
  ((l.event_handlers.drop l.event_handlers_it).zip (l.pollitems.drop l.pollitems_it)).filter
    fun r => r.2.ready

/-- The iterators step over a pair. -/
theorem advance_walk :
    (DriverLocals.walk hs₁ (h :: hs₂) ps₁ (p :: ps₂)).advance =
      .walk (hs₁ ++ [h]) hs₂ (ps₁ ++ [p]) ps₂ := by
  simp [DriverLocals.walk, DriverLocals.advance]

/-- The iterators erase a pair and stand behind it. -/
theorem erase_walk :
    (DriverLocals.walk hs₁ (h :: hs₂) ps₁ (p :: ps₂)).erase = .walk hs₁ hs₂ ps₁ ps₂ := by
  simp [DriverLocals.walk, DriverLocals.erase, List.eraseIdx_append_of_length_le]

/-- The handlers still to be run are the ready ones behind the iterators. -/
theorem remaining_walk :
    (DriverLocals.walk hs₁ hs₂ ps₁ ps₂).remaining = (hs₂.zip ps₂).filter fun r => r.2.ready := by
  simp [DriverLocals.walk, DriverLocals.remaining]

variable {handler : EventHandler H} (d : Driver H)

/-- At the end of both vectors. -/
theorem turn_end :
    d.turn handler (.walk hs₁ [] ps₁ []) = d.endIteration (.walk hs₁ [] ps₁ []) := by
  simp [Driver.turn, DriverLocals.walk]

/-- At an item that is ready. -/
theorem turn_ready (hready : p.ready = true) :
    d.turn handler (.walk hs₁ (h :: hs₂) ps₁ (p :: ps₂)) =
      { d with
        phase := .running (.walk hs₁ (h :: hs₂) ps₁ (p :: ps₂)) (handler.isOneOff h)
        trace := d.trace ++ [.asked h] ++ [.ran h p] } := by
  simp [Driver.turn, DriverLocals.walk, hready]

/-- At an item that is not ready. -/
theorem turn_skip (hready : ¬ p.ready = true) :
    d.turn handler (.walk hs₁ (h :: hs₂) ps₁ (p :: ps₂)) =
      { d with phase := .loop (.walk (hs₁ ++ [h]) hs₂ (ps₁ ++ [p]) ps₂) } := by
  rw [← advance_walk]
  simp [Driver.turn, DriverLocals.walk, hready]

/-- After a one-off handler. -/
theorem handlerReturned_true :
    d.handlerReturned (.walk hs₁ (h :: hs₂) ps₁ (p :: ps₂)) true =
      { d with phase := .loop (.walk hs₁ hs₂ ps₁ ps₂) } := by
  rw [Driver.handlerReturned, if_pos rfl, erase_walk]

/-- After another handler. -/
theorem handlerReturned_false :
    d.handlerReturned (.walk hs₁ (h :: hs₂) ps₁ (p :: ps₂)) false =
      { d with phase := .loop (.walk (hs₁ ++ [h]) hs₂ (ps₁ ++ [p]) ps₂) } := by
  rw [Driver.handlerReturned, if_neg Bool.false_ne_true, advance_walk]

end Walk

/-! ### The invariant -/

section Invariant

variable {H : Type} {handler : EventHandler H} {d d' : Driver H}

/-- The handlers that the driver has to put back or to keep. -/
def Driver.held (d : Driver H) : List H :=
  match d.phase with
  | .loop l => d.event_handlers_ ++ l.event_handlers
  | .running l is_one_off =>
      d.event_handlers_ ++ (if is_one_off then l.erase else l).event_handlers
  | _ => d.event_handlers_

/-- What still has to be run before the next poll. -/
def Driver.pending (d : Driver H) : List (H × PollItem) :=
  match d.phase with
  | .loop l => l.remaining
  | .running l _ => l.advance.remaining
  | _ => []

/-- The iterators are at the same place, in vectors that are aligned. -/
inductive DriverPhase.InStep (handler : EventHandler H) : DriverPhase H → Prop
  | setup : InStep handler .setup
  | head : InStep handler .head
  | loop (hs₁ hs₂ : List H) (ps₁ ps₂ : List PollItem) (h₁ : Aligned handler hs₁ ps₁)
      (h₂ : Aligned handler hs₂ ps₂) : InStep handler (.loop (.walk hs₁ hs₂ ps₁ ps₂))
  | running (hs₁ hs₂ : List H) (ps₁ ps₂ : List PollItem) (h : H) (p : PollItem)
      (h₁ : Aligned handler hs₁ ps₁) (h₂ : Aligned handler (h :: hs₂) (p :: ps₂)) :
      InStep handler (.running (.walk hs₁ (h :: hs₂) ps₁ (p :: ps₂)) (handler.isOneOff h))

/-- **The invariant of the event loop.** -/
structure DriverInv (handler : EventHandler H) (d : Driver H) : Prop where
  aligned : Aligned handler d.event_handlers_ d.pollitems_
  inStep : d.phase.InStep handler
  dispatch : DispatchInv handler d.trace d.held d.pending

/-- The invariant holds before any handler has been registered. -/
theorem DriverInv.init : DriverInv handler ({} : Driver H) :=
  ⟨rfl, .setup, DispatchInv.init⟩

/-- A handler is registered before `Run`, or by another handler. -/
theorem DriverInv.register {h : H} (hinv : DriverInv handler d)
    (hnew : h ∉ registrations d.trace)
    (hphase : d.phase = .setup ∨ ∃ l b, d.phase = .running l b) :
    DriverInv handler (d.registerEventHandler handler h) where
  aligned := hinv.aligned.append rfl
  inStep := hinv.inStep
  dispatch := by
    have hregister := hinv.dispatch.register hnew
    rcases hphase with hphase | ⟨l, b, hphase⟩
    · simpa [Driver.held, Driver.pending, Driver.registerEventHandler, hphase] using hregister
    · -- The new handler stands before the ones that are being walked.
      simp only [Driver.held, Driver.pending, Driver.registerEventHandler, hphase]
        at hregister ⊢
      refine hregister.perm ?_
      rw [List.append_assoc, List.append_assoc]
      exact List.perm_append_comm.append_left _

/-- `Run` is called. -/
theorem DriverInv.callRun (hinv : DriverInv handler d) (hphase : d.phase = .setup) :
    DriverInv handler { d with phase := .head } where
  aligned := hinv.aligned
  inStep := .head
  dispatch := by simpa [Driver.held, Driver.pending, hphase] using hinv.dispatch

/-- An iteration begins. -/
theorem DriverInv.poll (hinv : DriverInv handler d) (hphase : d.phase = .head)
    {revents : List (BitVec 16)} (hlen : revents.length = d.pollitems_.length) :
    DriverInv handler (d.beginIteration revents) where
  aligned := rfl
  inStep := .loop [] _ [] _ rfl (hinv.aligned.poll hlen)
  dispatch := by
    have hdispatch := hinv.dispatch
    simp only [Driver.held, Driver.pending, hphase] at hdispatch
    have hlength := (hinv.aligned.poll hlen).length_eq
    simp only [Driver.held, Driver.pending, Driver.beginIteration, List.nil_append]
    refine hdispatch.poll ?_
    -- Of the handlers paired with their items, some are ready.
    have hfst : (d.event_handlers_.zip (LatticeFlow.poll d.pollitems_ revents)).map Prod.fst =
        d.event_handlers_ := List.map_fst_zip hlength.ge
    have hsub := (List.filter_sublist (p := fun r : H × PollItem => r.2.ready)
      (l := d.event_handlers_.zip (LatticeFlow.poll d.pollitems_ revents))).map Prod.fst
    rwa [hfst] at hsub

/-- The inner loop goes on. -/
theorem DriverInv.turn (hinv : DriverInv handler d) {l : DriverLocals H}
    (hphase : d.phase = .loop l) : DriverInv handler (d.turn handler l) := by
  obtain ⟨haligned, hstep, hdispatch⟩ := hinv
  rw [hphase] at hstep
  cases hstep with
  | loop hs₁ hs₂ ps₁ ps₂ h₁ h₂ =>
      simp only [Driver.held, Driver.pending, hphase, remaining_walk] at hdispatch
      cases ps₂ with
      | nil =>
          obtain rfl : hs₂ = [] := List.length_eq_zero_iff.mp h₂.length_eq.symm
          rw [turn_end]
          exact ⟨haligned.append (h₁.append h₂), .head, hdispatch⟩
      | cons p ps₂ =>
          cases hs₂ with
          | nil => cases h₂.length_eq
          | cons h hs₂ =>
              rw [List.zip_cons_cons, List.filter_cons] at hdispatch
              by_cases hready : p.ready = true
              · rw [turn_ready d hready]
                rw [if_pos hready] at hdispatch
                refine ⟨haligned, .running _ _ _ _ _ _ h₁ h₂, ?_⟩
                simp only [Driver.held, Driver.pending, advance_walk, remaining_walk, erase_walk]
                refine hdispatch.run (by simp [DriverLocals.walk]) ?_ ?_
                · intro hoff
                  rw [if_pos hoff]
                  exact (List.perm_middle.append_left _).trans List.perm_middle
                · intro hoff
                  rw [hoff]
                  rfl
              · rw [turn_skip d hready]
                rw [if_neg hready] at hdispatch
                obtain ⟨hp, h₂⟩ := aligned_cons.mp h₂
                refine ⟨haligned, .loop _ _ _ _ (h₁.append (aligned_cons.mpr ⟨hp, rfl⟩)) h₂, ?_⟩
                simp only [Driver.held, Driver.pending, remaining_walk]
                simpa [DriverLocals.walk] using hdispatch

/-- The handler returns. -/
theorem DriverInv.handlerReturned (hinv : DriverInv handler d) {l : DriverLocals H} {b : Bool}
    (hphase : d.phase = .running l b) : DriverInv handler (d.handlerReturned l b) := by
  obtain ⟨haligned, hstep, hdispatch⟩ := hinv
  rw [hphase] at hstep
  cases hstep with
  | running hs₁ hs₂ ps₁ ps₂ h p h₁ h₂ =>
      simp only [Driver.held, Driver.pending, hphase, advance_walk, remaining_walk, erase_walk]
        at hdispatch
      obtain ⟨hp, h₂⟩ := aligned_cons.mp h₂
      cases hoff : handler.isOneOff h with
      | true =>
          rw [if_pos hoff] at hdispatch
          rw [handlerReturned_true]
          refine ⟨haligned, .loop _ _ _ _ h₁ h₂, ?_⟩
          simpa only [Driver.held, Driver.pending, remaining_walk] using hdispatch
      | false =>
          rw [hoff] at hdispatch
          rw [handlerReturned_false]
          refine ⟨haligned, .loop _ _ _ _ (h₁.append (aligned_cons.mpr ⟨hp, rfl⟩)) h₂, ?_⟩
          simp only [Driver.held, Driver.pending, remaining_walk]
          simpa [DriverLocals.walk] using hdispatch

variable [DecidableEq H]

/-- A registration that is allowed is a step. -/
theorem driver_step_register {h : H} (hnew : h ∉ registrations d.trace)
    (hphase : d.phase = .setup ∨ ∃ l b, d.phase = .running l b) :
    (driver handler).step d (.register h) = some (d.registerEventHandler handler h) := by
  rcases hphase with hphase | ⟨l, b, hphase⟩
  · simp [driver, hnew, hphase]
  · simp [driver, hnew, hphase]

/-- One step of the driver. -/
theorem driver_step_cases {a : DriverAction H} (hs : (driver handler).step d a = some d') :
    (∃ h, a = .register h ∧ h ∉ registrations d.trace ∧
      (d.phase = .setup ∨ ∃ l b, d.phase = .running l b) ∧
      d' = d.registerEventHandler handler h) ∨
    (a = .callRun ∧ d.phase = .setup ∧ d' = { d with phase := .head }) ∨
    (∃ revents, a = .poll revents ∧ d.phase = .head ∧
      revents.length = d.pollitems_.length ∧ d' = d.beginIteration revents) ∨
    (∃ l, a = .turn ∧ d.phase = .loop l ∧ d' = d.turn handler l) ∨
    ∃ l b, a = .handlerReturns ∧ d.phase = .running l b ∧ d' = d.handlerReturned l b := by
  cases a with
  | register h =>
      simp only [driver] at hs
      split_ifs at hs with hnew
      split at hs
      · rename_i hphase
        exact .inl ⟨h, rfl, hnew, .inl hphase, (Option.some.inj hs).symm⟩
      · rename_i l b hphase
        exact .inl ⟨h, rfl, hnew, .inr ⟨l, b, hphase⟩, (Option.some.inj hs).symm⟩
      · cases hs
  | callRun =>
      simp only [driver] at hs
      split at hs
      · rename_i hphase
        exact .inr (.inl ⟨rfl, hphase, (Option.some.inj hs).symm⟩)
      · cases hs
  | poll revents =>
      simp only [driver] at hs
      split at hs
      · rename_i hphase
        split_ifs at hs with hlen
        exact .inr (.inr (.inl ⟨revents, rfl, hphase, hlen, (Option.some.inj hs).symm⟩))
      · cases hs
  | turn =>
      simp only [driver] at hs
      split at hs
      · rename_i l hphase
        exact .inr (.inr (.inr (.inl ⟨l, rfl, hphase, (Option.some.inj hs).symm⟩)))
      · cases hs
  | handlerReturns =>
      simp only [driver] at hs
      split at hs
      · rename_i l b hphase
        exact .inr (.inr (.inr (.inr ⟨l, b, rfl, hphase, (Option.some.inj hs).symm⟩)))
      · cases hs

/-- **The invariant** holds in every state of every run. -/
theorem driverInv_of_reachable (hr : (driver handler).Reachable d) : DriverInv handler d := by
  refine hr.invariant DriverInv.init ?_
  intro s a s' _ hinv hs
  obtain ⟨h, -, hnew, hphase, rfl⟩ | ⟨-, hphase, rfl⟩ | ⟨revents, -, hphase, hlen, rfl⟩ |
    ⟨l, -, hphase, rfl⟩ | ⟨l, b, -, hphase, rfl⟩ := driver_step_cases hs
  · exact hinv.register hnew hphase
  · exact hinv.callRun hphase
  · exact hinv.poll hphase hlen
  · exact hinv.turn hphase
  · exact hinv.handlerReturned hphase

/-! ### Dispatch -/

/-- What is promised of the driver in a state. -/
structure Dispatches (handler : EventHandler H) (d : Driver H) : Prop where
  /-- Each item is that of the handler at the same position. -/
  aligned : d.phase = .head → Aligned handler d.event_handlers_ d.pollitems_
  /-- Each handler that is not a one-off handler that has run is registered, once. -/
  registered : d.phase = .head →
    d.event_handlers_.Nodup ∧ ∀ h, h ∈ d.event_handlers_ ↔ Live handler d.trace h
  /-- An iteration runs what was ready at its poll, in order. -/
  runs_ready : runs (sincePoll d.trace) <+: lastReady d.trace
  /-- At its end it has run all of that. -/
  runs_all : d.phase = .head → runs (sincePoll d.trace) = lastReady d.trace
  /-- Each handler is run once in an iteration. -/
  runs_once : (handlersRun (sincePoll d.trace)).Nodup
  /-- What is registered in an iteration is not run in it. -/
  registered_later : ∀ h ∈ registrations (sincePoll d.trace), h ∉ handlersRun (sincePoll d.trace)
  /-- A one-off handler is not called after it has run. -/
  calls : EachAfter (CallsLive handler) d.trace
  /-- The assertion does not fail. -/
  asserted : d.phase ≠ .failed

/-- **The event loop dispatches.** For any handlers, whatever they register while they run
and whatever is ready at each poll, in every state of every run. -/
theorem driver_dispatches (hr : (driver handler).Reachable d) : Dispatches handler d := by
  obtain ⟨haligned, hstep, hdispatch⟩ := driverInv_of_reachable hr
  have hbeginning : runs (sincePoll d.trace) <+: lastReady d.trace :=
    ⟨_, hdispatch.ready_eq⟩
  refine ⟨fun _ => haligned, ?_, hbeginning, ?_, ?_, ?_, hdispatch.calls, ?_⟩
  · intro hphase
    have hheld : d.held = d.event_handlers_ := by simp [Driver.held, hphase]
    rw [← hheld]
    exact ⟨hdispatch.held_nodup, hdispatch.mem_held⟩
  · intro hphase
    have hpending : d.pending = [] := by simp [Driver.pending, hphase]
    simpa [hpending] using hdispatch.ready_eq
  · exact (hbeginning.sublist.map Prod.fst).nodup hdispatch.ready_nodup
  · intro h hreg hran
    obtain ⟨r, hr, rfl⟩ := List.mem_map.mp hran
    exact hdispatch.ready_old r (hbeginning.subset hr) hreg
  · intro hphase
    rw [hphase] at hstep
    cases hstep

end Invariant

/-- Handlers of which `0` is one-off. -/
def zeroIsOneOff : EventHandler ℕ where
  isOneOff h := h == 0
  getPollitem h := ⟨h, 0, 1, 0⟩

/-- Handlers `0` and `1` are polled, and `0` is ready; it registers handler `2`. -/
def registersInRun : List (DriverAction ℕ) :=
  [.register 0, .register 1, .callRun, .poll [1, 0], .turn, .register 2, .handlerReturns, .turn,
    .turn]

/-- In the run `registersInRun` the driver has `2` and `1` at the head of the next
iteration. -/
theorem driver_dispatches_registers_in_run : ∃ d,
    (driver zeroIsOneOff).run (driver zeroIsOneOff).init registersInRun = some d ∧
      d.phase = .head ∧ d.event_handlers_ = [2, 1] ∧ handlersRun d.trace = [0] ∧
      Dispatches zeroIsOneOff d := by
  have hrun : ((driver zeroIsOneOff).run (driver zeroIsOneOff).init registersInRun).map (fun d =>
      (d.phase, d.event_handlers_, handlersRun d.trace)) = some (.head, [2, 1], [0]) := by
    decide
  obtain ⟨d, hd, heq⟩ := Option.map_eq_some_iff.mp hrun
  obtain ⟨hphase, hheld, hran⟩ : d.phase = .head ∧ d.event_handlers_ = [2, 1] ∧
      handlersRun d.trace = [0] := by
    simpa using heq
  exact ⟨d, hd, hphase, hheld, hran, driver_dispatches (Machine.reachable_of_run hd)⟩

end LatticeFlow
