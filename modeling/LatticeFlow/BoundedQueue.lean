import LatticeFlow.Lib.CondVar
import LatticeFlow.Lib.Machine

/-!
# The Bounded Queue

`BoundedQueue` of `concurrency/bounded_queue.h`: a queue of at most `capacity_` elements
under a lock, with a condition variable for callers of `pop` that wait for an element and one
for callers of `push` that wait for a free slot.

Threads are of an arbitrary type `Tid`. A step is a critical section: a call from its
beginning, or from its return from `wait`, to its return or to its next `wait`. Which waiter
a `notify_one` wakes is part of the action. A thread makes one call at a time.

The log of what was pushed and what was taken out is not part of the code.

## Main results

* `QueueInv`: the size, the order of the elements, and the two condition variables.
* `boundedQueue_fifo`: what holds in every state of every run.
-/

namespace LatticeFlow

/-! ### The queue -/

/-- A call of a method. -/
inductive QueueCall (T : Type)
  | push (x : T)
  | pop
  | tryPop
  | clear
  deriving DecidableEq, Repr

/-- `data_available_`: the calls that wait on it. -/
def QueueCall.waitsForData {T : Type} : QueueCall T → Bool
  | .pop => true
  | _ => false

/-- `space_available_`: the calls that wait on it. -/
def QueueCall.waitsForSpace {T : Type} : QueueCall T → Bool
  | .push _ => true
  | _ => false

/-- What happens to the elements. -/
inductive QueueEvent (Tid T : Type)
  /-- `push` has put an element into the queue. -/
  | pushed (t : Tid) (x : T)
  /-- `pop` or `try_pop` has returned an element. -/
  | returned (t : Tid) (x : T)
  /-- `try_pop` has returned nothing. -/
  | returnedNone (t : Tid)
  /-- `clear` has discarded an element. -/
  | discarded (t : Tid) (x : T)
  deriving DecidableEq, Repr

/-- A `BoundedQueue` with the calls that wait, and the log. -/
structure BoundedQueue (Tid T : Type) where
  xs_ : List T := []
  waiters : List (Waiter Tid (QueueCall T)) := []
  log : List (QueueEvent Tid T) := []
  deriving DecidableEq, Repr

/-- What moves the queue. -/
inductive QueueAction (Tid T : Type)
  /-- A thread calls a method; `choice` is the waiter that is notified, if one is. -/
  | call (t : Tid) (c : QueueCall T) (choice : Option ℕ)
  /-- A waiter that is awake gets the lock. -/
  | resume (i : ℕ) (choice : Option ℕ)
  /-- A waiter wakes up without a notification. -/
  | wakeUp (i : ℕ)
  deriving DecidableEq, Repr

namespace BoundedQueue

variable {Tid T : Type}

/-- `wait`. -/
def wait (q : BoundedQueue Tid T) (t : Tid) (c : QueueCall T) : BoundedQueue Tid T :=
  { q with waiters := q.waiters ++ [⟨t, c, .asleep⟩] }

/-- The front element is erased and a waiter for space is notified; the element is
returned. -/
def takeFront (q : BoundedQueue Tid T) (t : Tid) (x : T) (xs : List T) (choice : Option ℕ) :
    Option (BoundedQueue Tid T) :=
  (Waiter.notifyOne QueueCall.waitsForSpace choice q.waiters).map fun waiters =>
    { xs_ := xs, waiters := waiters, log := q.log ++ [.returned t x] }

/-- A critical section of a call: the condition of the loop is tested, and the call returns
or waits. -/
def criticalSection (capacity_ : ℕ) (q : BoundedQueue Tid T) (t : Tid) (c : QueueCall T)
    (choice : Option ℕ) : Option (BoundedQueue Tid T) :=
  match c with
  | .push x =>
      if q.xs_.length = capacity_ then some (q.wait t c)
      else
        (Waiter.notifyOne QueueCall.waitsForData choice q.waiters).map fun waiters =>
          { xs_ := q.xs_ ++ [x], waiters := waiters, log := q.log ++ [.pushed t x] }
  | .pop =>
      match q.xs_ with
      | [] => some (q.wait t c)
      | x :: xs => q.takeFront t x xs choice
  | .tryPop =>
      match q.xs_ with
      | [] => some { q with log := q.log ++ [.returnedNone t] }
      | x :: xs => q.takeFront t x xs choice
  | .clear =>
      some { xs_ := [], waiters := Waiter.notifyAll QueueCall.waitsForSpace q.waiters,
             log := q.log ++ q.xs_.map (.discarded t) }

end BoundedQueue

/-- The queue and the threads that use it. -/
def boundedQueue {Tid T : Type} [DecidableEq Tid] (capacity_ : ℕ) :
    Machine (BoundedQueue Tid T) (QueueAction Tid T) where
  init := {}
  step q
    | .call t c choice =>
        if q.waiters.any fun w => w.thread = t then none
        else q.criticalSection capacity_ t c choice
    | .resume i choice =>
        (Waiter.resume i q.waiters).bind fun r =>
          { q with waiters := r.2 }.criticalSection capacity_ r.1.thread r.1.call choice
    | .wakeUp i =>
        (Waiter.wakeUp i q.waiters).map fun waiters => { q with waiters := waiters }

/-! ### The invariant -/

section Invariant

variable {Tid T : Type} {capacity_ : ℕ} {q q' : BoundedQueue Tid T}

/-- The elements pushed, in order. -/
def pushedElements (log : List (QueueEvent Tid T)) : List T :=
  log.filterMap fun
    | .pushed _ x => some x
    | _ => none

/-- The elements returned or discarded, in order. -/
def removedElements (log : List (QueueEvent Tid T)) : List T :=
  log.filterMap fun
    | .returned _ x => some x
    | .discarded _ x => some x
    | _ => none

/-- **The invariant.** The elements, but for `data` of them, and the free slots, but for
`space` of them, are served by waiters that have been notified. -/
structure QueueInv (capacity_ data space : ℕ) (q : BoundedQueue Tid T) : Prop where
  bounded : q.xs_.length ≤ capacity_
  fifo : pushedElements q.log = removedElements q.log ++ q.xs_
  served_data : Waiter.Served QueueCall.waitsForData (q.xs_.length - data) q.waiters
  served_space :
    Waiter.Served QueueCall.waitsForSpace (capacity_ - q.xs_.length - space) q.waiters

/-- The invariant when a call has got the lock: what it may have been notified for is its
own. -/
def QueueInvAt (capacity_ : ℕ) (c : QueueCall T) (q : BoundedQueue Tid T) : Prop :=
  QueueInv capacity_ (if c.waitsForData then 1 else 0) (if c.waitsForSpace then 1 else 0) q

/-- At the beginning the queue is empty, and nobody waits. -/
theorem QueueInv.init : QueueInv capacity_ 0 0 ({} : BoundedQueue Tid T) where
  bounded := Nat.zero_le _
  fifo := rfl
  served_data h := absurd h (Nat.lt_irrefl 0)
  served_space h := absurd h (Nat.lt_irrefl 0)

/-- A call begins. -/
theorem QueueInv.call (h : QueueInv capacity_ 0 0 q) (c : QueueCall T) :
    QueueInvAt capacity_ c q :=
  { h with
    served_data := h.served_data.mono (Nat.sub_le_sub_left (Nat.zero_le _) _)
    served_space := h.served_space.mono (Nat.sub_le_sub_left (Nat.zero_le _) _) }

/-- A waiter gets the lock. -/
theorem QueueInv.resume {i : ℕ} {w : Waiter Tid (QueueCall T)}
    {waiters : List (Waiter Tid (QueueCall T))} (h : QueueInv capacity_ 0 0 q)
    (hresume : Waiter.resume i q.waiters = some (w, waiters)) :
    QueueInvAt capacity_ w.call { q with waiters := waiters } :=
  { h with
    served_data := h.served_data.resume hresume
    served_space := h.served_space.resume hresume }

/-- A waiter wakes up without a notification. -/
theorem QueueInv.wakeUp {i : ℕ} {waiters : List (Waiter Tid (QueueCall T))}
    (h : QueueInv capacity_ 0 0 q) (hwake : Waiter.wakeUp i q.waiters = some waiters) :
    QueueInv capacity_ 0 0 { q with waiters := waiters } :=
  { h with
    served_data := h.served_data.wakeUp hwake
    served_space := h.served_space.wakeUp hwake }

/-- No call waits on both condition variables. -/
theorem waitsForSpace_of_waitsForData {c : QueueCall T} (h : c.waitsForData = true) :
    c.waitsForSpace = false := by
  cases c with
  | pop => rfl
  | _ => cases h

/-- A call waits for space or for data, not for both. -/
theorem waitsForData_of_waitsForSpace {c : QueueCall T} (h : c.waitsForSpace = true) :
    c.waitsForData = false := by
  cases c with
  | push x => rfl
  | _ => cases h

/-- An element is taken out: one unit of data less, and one of space more. -/
theorem QueueInv.takeFront {data : ℕ} {t : Tid} {x : T} {xs : List T} {choice : Option ℕ}
    (h : QueueInv capacity_ data 0 q) (hdata : data ≤ 1) (hxs : q.xs_ = x :: xs)
    (hq : q.takeFront t x xs choice = some q') : QueueInv capacity_ 0 0 q' := by
  obtain ⟨waiters, hnotify, rfl⟩ := Option.map_eq_some_iff.mp hq
  obtain ⟨hbounded, hfifo, hdata', hspace⟩ := h
  rw [hxs, List.length_cons] at hbounded hdata' hspace
  refine ⟨by simp only; omega, ?_, ?_, ?_⟩
  · rw [hxs] at hfifo
    simpa [pushedElements, removedElements] using hfifo
  · exact (hdata'.notifyOne_other (fun _ => waitsForData_of_waitsForSpace) hnotify).mono
      (by simp only; omega)
  · exact (hspace.notifyOne hnotify).mono (by simp only; omega)

/-- **A critical section** keeps the invariant. -/
theorem QueueInvAt.criticalSection {t : Tid} {c : QueueCall T} {choice : Option ℕ}
    (h : QueueInvAt capacity_ c q) (hq : q.criticalSection capacity_ t c choice = some q') :
    QueueInv capacity_ 0 0 q' := by
  cases c with
  | push x =>
      obtain ⟨hbounded, hfifo, hdata, hspace⟩ := h
      simp only [QueueCall.waitsForData, QueueCall.waitsForSpace] at hdata hspace
      simp only [if_true, Bool.false_eq_true, if_false] at hdata hspace
      simp only [BoundedQueue.criticalSection] at hq
      split_ifs at hq with hfull
      · -- The queue is full: there is no space to be served.
        obtain rfl := Option.some.inj hq
        refine ⟨hbounded, hfifo, hdata.sleep_other rfl, ?_⟩
        rw [BoundedQueue.wait, hfull, Nat.sub_self]
        exact Waiter.served_zero
      · obtain ⟨waiters, hnotify, rfl⟩ := Option.map_eq_some_iff.mp hq
        refine ⟨?_, ?_, ?_, ?_⟩
        · rw [List.length_append, List.length_singleton]
          omega
        · have hfifo' := congrArg (· ++ [x]) hfifo
          simpa [pushedElements, removedElements] using hfifo'
        · exact (hdata.notifyOne hnotify).mono (by simp)
        · refine (hspace.notifyOne_other (fun _ => waitsForSpace_of_waitsForData) hnotify).mono ?_
          rw [List.length_append, List.length_singleton]
          omega
  | pop =>
      simp only [BoundedQueue.criticalSection] at hq
      split at hq
      · -- The queue is empty: there is no data to be served.
        rename_i hxs
        obtain rfl := Option.some.inj hq
        refine ⟨h.bounded, h.fifo, ?_, h.served_space.sleep_other rfl⟩
        rw [BoundedQueue.wait, hxs]
        exact Waiter.served_zero
      · rename_i x xs hxs
        exact QueueInv.takeFront h (Nat.le_refl 1) hxs hq
  | tryPop =>
      simp only [BoundedQueue.criticalSection] at hq
      split at hq
      · obtain rfl := Option.some.inj hq
        refine ⟨h.bounded, ?_, h.served_data, h.served_space⟩
        simpa [pushedElements, removedElements] using h.fifo
      · rename_i x xs hxs
        exact QueueInv.takeFront h (Nat.zero_le 1) hxs hq
  | clear =>
      obtain rfl := Option.some.inj hq
      refine ⟨Nat.zero_le _, ?_, Waiter.served_zero, Waiter.Served.notifyAll _⟩
      have hpushed : pushedElements (q.xs_.map (QueueEvent.discarded t)) = [] := by
        simp [pushedElements, List.filterMap_map]
      have hremoved : removedElements (q.xs_.map (QueueEvent.discarded t)) = q.xs_ := by
        simp [removedElements, List.filterMap_map]
      have hfifo := h.fifo
      simp only [pushedElements, removedElements, List.filterMap_append] at hpushed hremoved hfifo ⊢
      rw [hpushed, hremoved, hfifo, List.append_nil]

variable [DecidableEq Tid]

/-- **The invariant** holds in every state of every run. -/
theorem queueInv_of_reachable (hr : (boundedQueue capacity_).Reachable q) :
    QueueInv capacity_ 0 0 q := by
  refine hr.invariant QueueInv.init ?_
  intro q a q' _ hinv hs
  cases a with
  | call t c choice =>
      simp only [boundedQueue] at hs
      split_ifs at hs
      exact (hinv.call c).criticalSection hs
  | resume i choice =>
      obtain ⟨⟨w, waiters⟩, hresume, hs⟩ := Option.bind_eq_some_iff.mp hs
      exact (hinv.resume hresume).criticalSection hs
  | wakeUp i =>
      obtain ⟨waiters, hwake, rfl⟩ := Option.map_eq_some_iff.mp hs
      exact hinv.wakeUp hwake

/-! ### The queue as a queue -/

/-- **A bounded FIFO without lost wake-ups.** For any capacity and any interleaving of any
number of threads, in every state of every run: the queue holds no more than its capacity;
what was pushed is what was returned or discarded and what is in the queue, in this order;
and if a call of `pop` sleeps, each element has a notified call of `pop` that has not run, as
each free slot has a notified call of `push` if a call of `push` sleeps. -/
theorem boundedQueue_fifo (hr : (boundedQueue capacity_).Reachable q) :
    q.xs_.length ≤ capacity_ ∧
      pushedElements q.log = removedElements q.log ++ q.xs_ ∧
      (0 < Waiter.asleep QueueCall.waitsForData q.waiters →
        q.xs_.length ≤ Waiter.notified QueueCall.waitsForData q.waiters) ∧
      (0 < Waiter.asleep QueueCall.waitsForSpace q.waiters →
        capacity_ - q.xs_.length ≤ Waiter.notified QueueCall.waitsForSpace q.waiters) := by
  obtain ⟨hbounded, hfifo, hdata, hspace⟩ := queueInv_of_reachable hr
  exact ⟨hbounded, hfifo, hdata, hspace⟩

end Invariant

/-- Two threads wait for an element, and a third one pushes one. -/
def twoPoppers : List (QueueAction ℕ ℕ) :=
  [.call 0 .pop none, .call 1 .pop none, .call 2 (.push 7) (some 1)]

/-- After the run `twoPoppers` one thread sleeps, and the element is left for the other. -/
theorem boundedQueue_fifo_two_poppers : ∃ q,
    (boundedQueue 1).run (boundedQueue 1).init twoPoppers = some q ∧
      q.waiters = [⟨0, .pop, .asleep⟩, ⟨1, .pop, .notified⟩] ∧ q.xs_ = [7] ∧
      q.xs_.length ≤ Waiter.notified QueueCall.waitsForData q.waiters := by
  have hrun : (boundedQueue 1).run (boundedQueue 1).init twoPoppers =
      some ⟨[7], [⟨0, .pop, .asleep⟩, ⟨1, .pop, .notified⟩], [.pushed 2 7]⟩ := by
    decide
  exact ⟨_, hrun, rfl, rfl,
    (boundedQueue_fifo (Machine.reachable_of_run hrun)).2.2.1 (by decide)⟩

end LatticeFlow
