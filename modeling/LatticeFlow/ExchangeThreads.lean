import Mathlib.Data.Prod.Lex
import LatticeFlow.Exchange
import LatticeFlow.ThreadPool

/-!
# The Threads of an Exchange

`LatticeFlow.Exchange` takes an operation of a queue as one step. This module puts the queues
of `concurrency/queue.h` in their places: the consumer and the child thread take the lock of
a queue, wait on its condition variable when they find it empty, and are woken by the
`notify_one` of a push or for no reason at all.

The counters and the tags are natural numbers, as in `LatticeFlow.Exchange`.

Waiting changes nothing that the other thread could see, so that every run of the threads is
a run of the exchange (`ExchangeThreads.refines`). What the condition variables add is that a
thread may sleep; it sleeps only if the queue it waits for is empty (`exchange_sleeps`).

What the two threads do by themselves, between one call of the consumer and the next, comes
to an end in every schedule: each signal is read once, and between two signals the child
thread pushes finitely many tuples. When it has ended, the destructor can join the child
thread, and a consumer that called `next()` has its result, unless it had been given the end
marker before (`exchange_calls_return`).

## Main results

* `exchange_sleeps`: the refinement, and no lost wake-ups.
* `exchange_calls_return`: every call returns.
-/

namespace LatticeFlow

/-! ### The rest of the queue -/

namespace Queue

variable {Tid T : Type}

/-- `Queue::try_pop`. -/
def tryPop (q : Queue Tid T) : Option T × Queue Tid T :=
  match q.xs_ with
  | [] => (none, q)
  | x :: xs => (some x, { q with xs_ := xs })

/-- `Queue::clear`. -/
def clear (q : Queue Tid T) : Queue Tid T :=
  { q with xs_ := [] }

/-- **No lost wake-up**: if a call of `pop` sleeps, each element has a call of `pop` that has
been notified. -/
def Serves (q : Queue Tid T) : Prop :=
  Waiter.Served data_available_ q.xs_.length q.waiters

variable {q q' : Queue Tid T}

/-- A push notifies a call that sleeps, if there is one. -/
theorem Serves.push {x : T} {choice : Option ℕ} (h : q.Serves)
    (hq : q.push x choice = some q') : q'.Serves := by
  obtain ⟨waiters, hnotify, rfl⟩ := Option.map_eq_some_iff.mp hq
  rw [Serves, List.length_append, List.length_singleton]
  exact Waiter.Served.notifyOne h hnotify

/-- A call of `pop` that has the lock, and may have been notified for one element. -/
theorem serves_pop (h : Waiter.Served data_available_ (q.xs_.length - 1) q.waiters) (t : Tid) :
    (q.pop t).2.Serves := by
  rw [pop]
  split
  · rename_i hxs
    rw [Serves, hxs]
    exact Waiter.served_zero
  · rename_i x xs hxs
    rw [hxs] at h
    exact h

/-- A call of `pop` that has the lock. -/
theorem Serves.pop (h : q.Serves) (t : Tid) : (q.pop t).2.Serves :=
  serves_pop (Waiter.Served.mono h (Nat.sub_le _ _)) t

/-- A waiter gets the lock. -/
theorem Serves.resume {i : ℕ} {w : Waiter Tid Unit} {waiters : List (Waiter Tid Unit)}
    (h : q.Serves) (hresume : Waiter.resume i q.waiters = some (w, waiters)) (t : Tid) :
    (({ q with waiters := waiters } : Queue Tid T).pop t).2.Serves := by
  refine serves_pop ?_ t
  simpa [data_available_] using Waiter.Served.resume h hresume

/-- A call wakes up without a notification. -/
theorem Serves.wakeUp {i : ℕ} {waiters : List (Waiter Tid Unit)} (h : q.Serves)
    (hwake : Waiter.wakeUp i q.waiters = some waiters) :
    ({ q with waiters := waiters } : Queue Tid T).Serves :=
  Waiter.Served.wakeUp h hwake

/-- `try_pop` takes an element and never waits. -/
theorem Serves.tryPop (h : q.Serves) : q.tryPop.2.Serves := by
  rw [Queue.tryPop]
  split
  · exact h
  · rename_i x xs hxs
    exact Waiter.Served.mono h (by simp [hxs])

/-- An empty queue owes nobody anything. -/
theorem Serves.clear : q.clear.Serves :=
  Waiter.served_zero

end Queue

/-! ### The threads -/

/-- `Exchange`, with its two queues and the two threads that wait for them. -/
structure ExchangeThreads {α : Type} (child : Operator α) where
  num_resets_ : ℕ := 0
  buffer_ : Queue Unit (Entry α) := {}
  signals_ : Queue Unit Signal := {}
  consumer : ConsumerPc := .idle
  childState : child.State := child.init
  num_resets : ℕ := 0
  childPc : ChildPc α := .callNext
  results : List (Returned α) := []

/-- A step; `choice` is the waiter that a push notifies, if it notifies one. -/
inductive ThreadAction
  | callNext
  /-- The consumer gets the lock in `buffer_.pop()`. -/
  | pop
  /-- The consumer, awake in `buffer_.pop()`, gets the lock again. -/
  | resume (i : ℕ)
  /-- The consumer wakes up without a notification. -/
  | wakeUp (i : ℕ)
  | callReset
  | signal (choice : Option ℕ)
  | destroy (choice : Option ℕ)
  /-- The next step of the child thread, if it does not wait. -/
  | child (choice : Option ℕ)
  /-- The child thread, awake in `signals_.pop()`, gets the lock again. -/
  | childResume (i : ℕ)
  /-- The child thread wakes up without a notification. -/
  | childWakeUp (i : ℕ)
  deriving DecidableEq, Repr

namespace ExchangeThreads

variable {α : Type} {child : Operator α}

/-- The consumer has the lock of `buffer_` in `next()`. -/
def pop (s : ExchangeThreads child) (buffer_ : Queue Unit (Entry α)) : ExchangeThreads child :=
  match buffer_.pop () with
  | (none, buffer_) => { s with buffer_ := buffer_ }
  | (some e, buffer_) =>
      if e.tag ≠ s.num_resets_ then { s with buffer_ := buffer_ }
      else
        { s with
          buffer_ := buffer_
          consumer := .idle
          results := s.results ++ [⟨s.num_resets_, e.value, e.pushedAt⟩] }

/-- The child thread has the lock of `signals_` at the end of the stream. -/
def childPop (s : ExchangeThreads child) (signals_ : Queue Unit Signal) :
    ExchangeThreads child :=
  match signals_.pop () with
  | (none, signals_) => { s with signals_ := signals_ }
  | (some .reset, signals_) =>
      { s with
        signals_ := signals_
        childState := child.reset s.childState
        num_resets := s.num_resets + 1
        childPc := .callNext }
  | (some .die, signals_) => { s with signals_ := signals_, childPc := .exited }

/-- The child thread pushes an entry, and goes on at `pc`. -/
def childPush (s : ExchangeThreads child) (value : Option α) (pc : ChildPc α)
    (choice : Option ℕ) : Option (ExchangeThreads child) :=
  (s.buffer_.push ⟨s.num_resets, value, s.num_resets_⟩ choice).map fun buffer_ =>
    { s with buffer_ := buffer_, childPc := pc }

/-- The next step of the child thread. -/
def childStep (s : ExchangeThreads child) (choice : Option ℕ) : Option (ExchangeThreads child) :=
  match s.childPc with
  | .callNext =>
      match child.next s.childState with
      | (some t, childState) => some { s with childState := childState, childPc := .pushTuple t }
      | (none, childState) => some { s with childState := childState, childPc := .pushEnd }
  | .pushTuple t => s.childPush (some t) .tryPop choice
  | .tryPop =>
      match s.signals_.tryPop with
      | (none, signals_) => some { s with signals_ := signals_, childPc := .callNext }
      | (some .reset, signals_) => some { s with signals_ := signals_, childPc := .clear }
      | (some .die, signals_) => some { s with signals_ := signals_, childPc := .exited }
  | .clear => some { s with buffer_ := s.buffer_.clear, childPc := .resetAndReturn }
  | .resetAndReturn =>
      some { s with
        childState := child.reset s.childState
        num_resets := s.num_resets + 1
        childPc := .exited }
  | .pushEnd => s.childPush none .pop choice
  | .pop => if s.signals_.waiters = [] then some (s.childPop s.signals_) else none
  | .exited => none

/-- The consumer sends a signal, and is at `pc` then. -/
def send (s : ExchangeThreads child) (signal : Signal) (pc : ConsumerPc) (choice : Option ℕ) :
    Option (ExchangeThreads child) :=
  (s.signals_.push signal choice).map fun signals_ =>
    { s with signals_ := signals_, consumer := pc }

/-- What the exchange is when waiting is left out. -/
def toExchange (s : ExchangeThreads child) : Exchange child where
  num_resets_ := s.num_resets_
  buffer_ := s.buffer_.xs_
  signals_ := s.signals_.xs_
  consumer := s.consumer
  childState := s.childState
  num_resets := s.num_resets
  childPc := s.childPc
  results := s.results

end ExchangeThreads

/-- The machine of the two threads and their queues. -/
def exchangeThreads {α : Type} (child : Operator α) :
    Machine (ExchangeThreads child) ThreadAction where
  init := {}
  step s
    | .callNext => if s.consumer = .idle then some { s with consumer := .inNext } else none
    | .pop =>
        if s.consumer = .inNext ∧ s.buffer_.waiters = [] then some (s.pop s.buffer_) else none
    | .resume i =>
        (Waiter.resume i s.buffer_.waiters).map fun r =>
          s.pop { s.buffer_ with waiters := r.2 }
    | .wakeUp i =>
        (Waiter.wakeUp i s.buffer_.waiters).map fun waiters =>
          { s with buffer_ := { s.buffer_ with waiters := waiters } }
    | .callReset =>
        if s.consumer = .idle then
          some { s with num_resets_ := s.num_resets_ + 1, consumer := .resetting }
        else none
    | .signal choice => if s.consumer = .resetting then s.send .reset .idle choice else none
    | .destroy choice => if s.consumer = .idle then s.send .die .destroying choice else none
    | .child choice => s.childStep choice
    | .childResume i =>
        (Waiter.resume i s.signals_.waiters).map fun r =>
          s.childPop { s.signals_ with waiters := r.2 }
    | .childWakeUp i =>
        (Waiter.wakeUp i s.signals_.waiters).map fun waiters =>
          { s with signals_ := { s.signals_ with waiters := waiters } }

/-! ### What a step does -/

section Steps

variable {α : Type} {child : Operator α} {s s' : ExchangeThreads child}

namespace ExchangeThreads

/-- A turn of the loop of `next()` is one of the exchange, or the consumer waits. -/
theorem toExchange_pop (buffer_ : Queue Unit (Entry α)) (hc : s.consumer = .inNext)
    (hxs : buffer_.xs_ = s.buffer_.xs_) :
    (s.pop buffer_).toExchange = s.toExchange ∨
      (exchange child).step s.toExchange .pop = some (s.pop buffer_).toExchange := by
  rw [pop, Queue.pop]
  cases hb : buffer_.xs_ with
  | nil => exact .inl (by simp [toExchange, ← hxs, hb])
  | cons e b =>
      right
      rw [hb] at hxs
      simp only [exchange, Exchange.pop, toExchange, hc, ← hxs]
      split_ifs <;> rfl

/-- Reading a signal at the end of the stream is a step of the child thread, or it waits. -/
theorem toExchange_childPop (signals_ : Queue Unit Signal) (hpc : s.childPc = .pop)
    (hxs : signals_.xs_ = s.signals_.xs_) :
    (s.childPop signals_).toExchange = s.toExchange ∨
      (exchange child).step s.toExchange .child = some (s.childPop signals_).toExchange := by
  rw [childPop, Queue.pop]
  cases hb : signals_.xs_ with
  | nil => exact .inl (by simp [toExchange, ← hxs, hb])
  | cons signal ss =>
      right
      rw [hb] at hxs
      cases signal with
      | reset => simp [exchange, Exchange.childStep, toExchange, hpc, ← hxs]
      | die => simp [exchange, Exchange.childStep, toExchange, hpc, ← hxs]

/-- A push of the child thread. -/
theorem childPush_eq_some {value : Option α} {pc : ChildPc α} {choice : Option ℕ}
    (h : s.childPush value pc choice = some s') :
    ∃ buffer_, s.buffer_.push ⟨s.num_resets, value, s.num_resets_⟩ choice = some buffer_ ∧
      buffer_.xs_ = s.buffer_.xs_ ++ [⟨s.num_resets, value, s.num_resets_⟩] ∧
      s' = { s with buffer_ := buffer_, childPc := pc } := by
  obtain ⟨buffer_, hpush, rfl⟩ := Option.map_eq_some_iff.mp h
  obtain ⟨waiters, hnotify, rfl⟩ := Option.map_eq_some_iff.mp hpush
  exact ⟨_, hpush, rfl, rfl⟩

/-- A signal of the consumer. -/
theorem send_eq_some {signal : Signal} {pc : ConsumerPc} {choice : Option ℕ}
    (h : s.send signal pc choice = some s') :
    ∃ signals_, s.signals_.push signal choice = some signals_ ∧
      signals_.xs_ = s.signals_.xs_ ++ [signal] ∧
      s' = { s with signals_ := signals_, consumer := pc } := by
  obtain ⟨signals_, hpush, rfl⟩ := Option.map_eq_some_iff.mp h
  obtain ⟨waiters, hnotify, rfl⟩ := Option.map_eq_some_iff.mp hpush
  exact ⟨_, hpush, rfl, rfl⟩

/-- A step of the child thread that does not wait is one of the exchange, or it begins to
wait. -/
theorem toExchange_childStep {choice : Option ℕ} (h : s.childStep choice = some s') :
    s'.toExchange = s.toExchange ∨
      (exchange child).step s.toExchange .child = some s'.toExchange := by
  simp only [childStep] at h
  cases hpc : s.childPc with
  | callNext =>
      right
      simp only [hpc] at h
      split at h
      · rename_i t σ hnext
        cases h
        simp [exchange, Exchange.childStep, toExchange, hpc, hnext]
      · rename_i σ hnext
        cases h
        simp [exchange, Exchange.childStep, toExchange, hpc, hnext]
  | pushTuple t =>
      right
      simp only [hpc] at h
      obtain ⟨buffer_, -, hxs, rfl⟩ := childPush_eq_some h
      simp [exchange, Exchange.childStep, toExchange, hpc, hxs]
  | tryPop =>
      right
      simp only [hpc, Queue.tryPop] at h
      cases hsig : s.signals_.xs_ with
      | nil =>
          simp only [hsig] at h
          cases h
          simp [exchange, Exchange.childStep, toExchange, hpc, hsig]
      | cons signal ss =>
          cases signal with
          | reset =>
              simp only [hsig] at h
              cases h
              simp [exchange, Exchange.childStep, toExchange, hpc, hsig]
          | die =>
              simp only [hsig] at h
              cases h
              simp [exchange, Exchange.childStep, toExchange, hpc, hsig]
  | clear =>
      right
      simp only [hpc] at h
      cases h
      simp [exchange, Exchange.childStep, toExchange, hpc, Queue.clear]
  | resetAndReturn =>
      right
      simp only [hpc] at h
      cases h
      simp [exchange, Exchange.childStep, toExchange, hpc]
  | pushEnd =>
      right
      simp only [hpc] at h
      obtain ⟨buffer_, -, hxs, rfl⟩ := childPush_eq_some h
      simp [exchange, Exchange.childStep, toExchange, hpc, hxs]
  | pop =>
      simp only [hpc] at h
      split_ifs at h
      obtain rfl := Option.some.inj h
      exact toExchange_childPop _ hpc rfl
  | exited =>
      simp only [hpc] at h
      cases h

end ExchangeThreads

end Steps

/-! ### Who waits -/

section Waits

variable {T : Type} {q q' : Queue Unit T} {popping popping' : Prop}

/-- At most one thread waits in `pop`, it waits only while `popping`, and no wake-up for it
is lost. -/
structure Queue.OnePopper (q : Queue Unit T) (popping : Prop) : Prop where
  serves : q.Serves
  one : q.waiters.length ≤ 1
  waits : q.waiters ≠ [] → popping

namespace Queue.OnePopper

/-- Nobody waits if the one thread that pops does something else. -/
theorem waiters_eq_nil (h : q.OnePopper popping) (hnot : ¬ popping) : q.waiters = [] := by
  by_contra hne
  exact hnot (h.waits hne)

/-- A thread that does not wait may go anywhere. -/
theorem move (h : q.OnePopper popping) (hnot : ¬ popping) : q.OnePopper popping' :=
  ⟨h.serves, h.one, fun hne => absurd (h.waiters_eq_nil hnot) hne⟩

/-- A push does not make anybody wait. -/
theorem push {x : T} {choice : Option ℕ} (h : q.OnePopper popping)
    (hq : q.push x choice = some q') : q'.OnePopper popping := by
  have hserves := h.serves.push hq
  obtain ⟨waiters, hnotify, rfl⟩ := Option.map_eq_some_iff.mp hq
  have hlen := congrArg List.length (Waiter.threads_notifyOne hnotify)
  rw [List.length_map, List.length_map] at hlen
  refine ⟨hserves, hlen ▸ h.one, fun hne => h.waits fun hnil => hne ?_⟩
  rw [hnil] at hlen
  exact List.length_eq_zero_iff.mp hlen

/-- The thread has the lock in `pop`: it waits, or it has its element. -/
theorem pop (hserves : (q.pop ()).2.Serves) (hnil : q.waiters = [])
    (hwait : q.xs_ = [] → popping) : (q.pop ()).2.OnePopper popping := by
  refine ⟨hserves, ?_, ?_⟩
  · rw [Queue.pop]
    split <;> simp [hnil]
  · rw [Queue.pop]
    split
    · rename_i hxs
      exact fun _ => hwait hxs
    · exact fun hne => absurd hnil hne

/-- Nor does a wake-up. -/
theorem wakeUp {i : ℕ} {waiters : List (Waiter Unit Unit)} (h : q.OnePopper popping)
    (hwake : Waiter.wakeUp i q.waiters = some waiters) :
    ({ q with waiters := waiters } : Queue Unit T).OnePopper popping := by
  have hlen := congrArg List.length (Waiter.threads_wakeUp hwake)
  rw [List.length_map, List.length_map] at hlen
  refine ⟨h.serves.wakeUp hwake, hlen ▸ h.one, fun hne => h.waits fun hnil => hne ?_⟩
  rw [hnil] at hlen
  exact List.length_eq_zero_iff.mp hlen

/-- Nor does `clear`. -/
theorem clear (h : q.OnePopper popping) : q.clear.OnePopper popping :=
  ⟨Queue.Serves.clear, h.one, h.waits⟩

/-- Nor does `try_pop`. -/
theorem tryPop (h : q.OnePopper popping) : q.tryPop.2.OnePopper popping := by
  have hserves := h.serves.tryPop
  rw [Queue.tryPop] at hserves ⊢
  split at hserves
  · exact ⟨hserves, h.one, h.waits⟩
  · exact ⟨hserves, h.one, h.waits⟩

/-- The only waiter leaves no other behind. -/
theorem resume_eq_nil {i : ℕ} {w : Waiter Unit Unit} {waiters : List (Waiter Unit Unit)}
    (h : q.OnePopper popping) (hresume : Waiter.resume i q.waiters = some (w, waiters)) :
    popping ∧ waiters = [] := by
  obtain ⟨-, l₁, l₂, hws, rfl⟩ := Waiter.resume_cases hresume
  have hone := h.one
  rw [hws, List.length_append, List.length_cons] at hone
  refine ⟨h.waits (by simp [hws]), List.length_eq_zero_iff.mp ?_⟩
  rw [List.length_append]
  omega

/-- **A thread that sleeps has nothing to pop.** -/
theorem xs_eq_nil (h : q.OnePopper popping) {w : Waiter Unit Unit} (hw : w ∈ q.waiters)
    (hasleep : w.wake = .asleep) : q.xs_ = [] := by
  obtain ⟨t, c, wake⟩ := w
  obtain rfl : wake = .asleep := hasleep
  have hws : q.waiters = [⟨t, c, .asleep⟩] := by
    obtain ⟨w', hw'⟩ : ∃ w', q.waiters = [w'] := by
      rw [← List.length_eq_one_iff]
      have := List.length_pos_of_mem hw
      have := h.one
      omega
    rw [hw', List.mem_singleton] at hw
    rw [hw', hw]
  have hserves := h.serves
  rw [Queue.Serves, hws] at hserves
  have hle := hserves (by simp [Waiter.asleep, Queue.data_available_])
  exact List.length_eq_zero_iff.mp (by simpa [Waiter.notified] using hle)

end Queue.OnePopper

end Waits

section Invariant

variable {α : Type} {child : Operator α} {s s' : ExchangeThreads child}

/-- The consumer waits for the buffer, and the child thread for a signal. -/
structure ThreadsInv (s : ExchangeThreads child) : Prop where
  buffer_ : s.buffer_.OnePopper (s.consumer = .inNext)
  signals_ : s.signals_.OnePopper (s.childPc = .pop)

namespace ThreadsInv

/-- At the beginning nobody waits. -/
theorem init : ThreadsInv ({} : ExchangeThreads child) where
  buffer_ := ⟨Waiter.served_zero, by simp, by simp⟩
  signals_ := ⟨Waiter.served_zero, by simp, by simp⟩

/-- The consumer has the lock in `next()`. -/
theorem pop (hs : ThreadsInv s) {q : Queue Unit (Entry α)} (hc : s.consumer = .inNext)
    (hserves : (q.pop ()).2.Serves) (hnil : q.waiters = []) : ThreadsInv (s.pop q) := by
  have hpop : (q.pop ()).2.OnePopper (s.consumer = .inNext) :=
    Queue.OnePopper.pop hserves hnil fun _ => hc
  rw [ExchangeThreads.pop]
  rcases hq : q.pop () with ⟨_ | e, q'⟩
  · rw [hq] at hpop
    exact ⟨hpop, hs.signals_⟩
  · rw [hq] at hpop
    simp only
    split_ifs
    · exact ⟨hpop, hs.signals_⟩
    · -- An element has been popped, so that nobody waits.
      have hws : q'.waiters = [] := by
        have := congrArg (fun r => r.2.waiters) hq
        rw [Queue.pop] at this hq
        split at hq
        · cases hq
        · simp_all
      exact ⟨⟨hpop.serves, hpop.one, fun hne => absurd hws hne⟩, hs.signals_⟩

/-- The child thread has the lock at the end of the stream. -/
theorem childPop (hs : ThreadsInv s) {q : Queue Unit Signal} (hpc : s.childPc = .pop)
    (hserves : (q.pop ()).2.Serves) (hnil : q.waiters = []) : ThreadsInv (s.childPop q) := by
  have hpop : (q.pop ()).2.OnePopper (s.childPc = .pop) :=
    Queue.OnePopper.pop hserves hnil fun _ => hpc
  rw [ExchangeThreads.childPop]
  rw [Queue.pop] at hpop ⊢
  cases hq : q.xs_ with
  | nil =>
      rw [hq] at hpop
      exact ⟨hs.buffer_, hpop⟩
  | cons signal ss =>
      rw [hq] at hpop
      cases signal with
      | reset => exact ⟨hs.buffer_, hpop.serves, hpop.one, fun hne => absurd hnil hne⟩
      | die => exact ⟨hs.buffer_, hpop.serves, hpop.one, fun hne => absurd hnil hne⟩

/-- A step of the child thread keeps the queues as they should be. -/
theorem childStep (hs : ThreadsInv s) {choice : Option ℕ} (h : s.childStep choice = some s') :
    ThreadsInv s' := by
  simp only [ExchangeThreads.childStep] at h
  cases hpc : s.childPc with
  | callNext =>
      simp only [hpc] at h
      have hmove : ∀ pc : Prop, s.signals_.OnePopper pc := fun _ =>
        hs.signals_.move (by simp [hpc])
      split at h
      · cases h
        exact ⟨hs.buffer_, hmove _⟩
      · cases h
        exact ⟨hs.buffer_, hmove _⟩
  | pushTuple t =>
      simp only [hpc] at h
      obtain ⟨buffer_, hpush, -, rfl⟩ := ExchangeThreads.childPush_eq_some h
      exact ⟨hs.buffer_.push hpush, hs.signals_.move (by simp [hpc])⟩
  | tryPop =>
      simp only [hpc] at h
      have hmove : ∀ pc : Prop, s.signals_.tryPop.2.OnePopper pc := fun _ =>
        hs.signals_.tryPop.move (by simp [hpc])
      rcases hq : s.signals_.tryPop with ⟨_ | signal, q'⟩
      · simp only [hq] at h hmove
        cases h
        exact ⟨hs.buffer_, hmove _⟩
      · cases signal with
        | reset =>
            simp only [hq] at h hmove
            cases h
            exact ⟨hs.buffer_, hmove _⟩
        | die =>
            simp only [hq] at h hmove
            cases h
            exact ⟨hs.buffer_, hmove _⟩
  | clear =>
      simp only [hpc] at h
      cases h
      exact ⟨hs.buffer_.clear, hs.signals_.move (by simp [hpc])⟩
  | resetAndReturn =>
      simp only [hpc] at h
      cases h
      exact ⟨hs.buffer_, hs.signals_.move (by simp [hpc])⟩
  | pushEnd =>
      simp only [hpc] at h
      obtain ⟨buffer_, hpush, -, rfl⟩ := ExchangeThreads.childPush_eq_some h
      exact ⟨hs.buffer_.push hpush, hs.signals_.move (by simp [hpc])⟩
  | pop =>
      simp only [hpc] at h
      split_ifs at h with hnil
      obtain rfl := Option.some.inj h
      exact hs.childPop hpc (hs.signals_.serves.pop ()) hnil
  | exited =>
      simp only [hpc] at h
      cases h

/-- Every step keeps the invariant. -/
theorem step (hs : ThreadsInv s) {a : ThreadAction}
    (h : (exchangeThreads child).step s a = some s') : ThreadsInv s' := by
  cases a with
  | callNext =>
      simp only [exchangeThreads, Option.ite_none_right_eq_some, Option.some.injEq] at h
      obtain ⟨hc, rfl⟩ := h
      exact ⟨hs.buffer_.move (by simp [hc]), hs.signals_⟩
  | pop =>
      simp only [exchangeThreads, Option.ite_none_right_eq_some, Option.some.injEq] at h
      obtain ⟨⟨hc, hnil⟩, rfl⟩ := h
      exact hs.pop hc (hs.buffer_.serves.pop ()) hnil
  | resume i =>
      obtain ⟨⟨w, waiters⟩, hresume, rfl⟩ := Option.map_eq_some_iff.mp h
      obtain ⟨hc, hnil⟩ := hs.buffer_.resume_eq_nil hresume
      exact hs.pop hc (hs.buffer_.serves.resume hresume ()) hnil
  | wakeUp i =>
      obtain ⟨waiters, hwake, rfl⟩ := Option.map_eq_some_iff.mp h
      exact ⟨hs.buffer_.wakeUp hwake, hs.signals_⟩
  | callReset =>
      simp only [exchangeThreads, Option.ite_none_right_eq_some, Option.some.injEq] at h
      obtain ⟨hc, rfl⟩ := h
      exact ⟨hs.buffer_.move (by simp [hc]), hs.signals_⟩
  | signal choice =>
      simp only [exchangeThreads, Option.ite_none_right_eq_some] at h
      obtain ⟨hc, h⟩ := h
      obtain ⟨signals_, hpush, -, rfl⟩ := ExchangeThreads.send_eq_some h
      exact ⟨hs.buffer_.move (by simp [hc]), hs.signals_.push hpush⟩
  | destroy choice =>
      simp only [exchangeThreads, Option.ite_none_right_eq_some] at h
      obtain ⟨hc, h⟩ := h
      obtain ⟨signals_, hpush, -, rfl⟩ := ExchangeThreads.send_eq_some h
      exact ⟨hs.buffer_.move (by simp [hc]), hs.signals_.push hpush⟩
  | child choice => exact hs.childStep h
  | childResume i =>
      obtain ⟨⟨w, waiters⟩, hresume, rfl⟩ := Option.map_eq_some_iff.mp h
      obtain ⟨hpc, hnil⟩ := hs.signals_.resume_eq_nil hresume
      exact hs.childPop hpc (hs.signals_.serves.resume hresume ()) hnil
  | childWakeUp i =>
      obtain ⟨waiters, hwake, rfl⟩ := Option.map_eq_some_iff.mp h
      exact ⟨hs.buffer_, hs.signals_.wakeUp hwake⟩

end ThreadsInv

/-- **The invariant** holds in every state of every run. -/
theorem threadsInv_of_reachable (h : (exchangeThreads child).Reachable s) : ThreadsInv s :=
  h.invariant ThreadsInv.init fun _ _ _ _ hs hstep => hs.step hstep

end Invariant

/-! ### The refinement -/

section Refinement

variable {α : Type} {child : Operator α} {s s' : ExchangeThreads child}

/-- The child thread does not find a reset in mid-stream. -/
def ThreadAction.NoMidstreamReset (s : ExchangeThreads child) (a : ThreadAction) : Prop :=
  (∃ choice, a = .child choice) → s.childPc = .tryPop → s.signals_.xs_.head? ≠ some .reset

/-- **Every step of the threads** is a step of the exchange or none at all. -/
theorem ExchangeThreads.refines (hs : ThreadsInv s) {a : ThreadAction}
    (h : (exchangeThreads child).step s a = some s') :
    s'.toExchange = s.toExchange ∨
      ∃ b, (exchange child).step s.toExchange b = some s'.toExchange ∧
        (a.NoMidstreamReset s → LatticeFlow.NoMidstreamReset s.toExchange b) := by
  -- Only steps of the child thread can find a reset.
  have hok : ∀ b, b ≠ ExchangeAction.child →
      LatticeFlow.NoMidstreamReset s.toExchange b := fun b hb hchild => absurd hchild hb
  cases a with
  | callNext =>
      simp only [exchangeThreads, Option.ite_none_right_eq_some, Option.some.injEq] at h
      obtain ⟨hc, rfl⟩ := h
      exact .inr ⟨.callNext, by simp [exchange, toExchange, hc], fun _ => hok _ (by simp)⟩
  | pop =>
      simp only [exchangeThreads, Option.ite_none_right_eq_some, Option.some.injEq] at h
      obtain ⟨⟨hc, hnil⟩, rfl⟩ := h
      exact (toExchange_pop _ hc rfl).imp_right fun hpop => ⟨.pop, hpop, fun _ => hok _ (by simp)⟩
  | resume i =>
      obtain ⟨⟨w, waiters⟩, hresume, rfl⟩ := Option.map_eq_some_iff.mp h
      have hc := (hs.buffer_.resume_eq_nil hresume).1
      exact (toExchange_pop { s.buffer_ with waiters := waiters } hc rfl).imp_right fun hpop =>
        ⟨.pop, hpop, fun _ => hok _ (by simp)⟩
  | wakeUp i =>
      obtain ⟨waiters, hwake, rfl⟩ := Option.map_eq_some_iff.mp h
      exact .inl rfl
  | callReset =>
      simp only [exchangeThreads, Option.ite_none_right_eq_some, Option.some.injEq] at h
      obtain ⟨hc, rfl⟩ := h
      exact .inr ⟨.callReset, by simp [exchange, toExchange, hc], fun _ => hok _ (by simp)⟩
  | signal choice =>
      simp only [exchangeThreads, Option.ite_none_right_eq_some] at h
      obtain ⟨hc, h⟩ := h
      obtain ⟨signals_, hpush, hxs, rfl⟩ := send_eq_some h
      exact .inr ⟨.signal, by simp [exchange, toExchange, hc, hxs], fun _ => hok _ (by simp)⟩
  | destroy choice =>
      simp only [exchangeThreads, Option.ite_none_right_eq_some] at h
      obtain ⟨hc, h⟩ := h
      obtain ⟨signals_, hpush, hxs, rfl⟩ := send_eq_some h
      exact .inr ⟨.destroy, by simp [exchange, toExchange, hc, hxs], fun _ => hok _ (by simp)⟩
  | child choice =>
      exact (toExchange_childStep h).imp_right fun hstep =>
        ⟨.child, hstep, fun hno _ => hno ⟨choice, rfl⟩⟩
  | childResume i =>
      obtain ⟨⟨w, waiters⟩, hresume, rfl⟩ := Option.map_eq_some_iff.mp h
      have hpc := (hs.signals_.resume_eq_nil hresume).1
      refine (toExchange_childPop { s.signals_ with waiters := waiters } hpc rfl).imp_right
        fun hstep => ⟨.child, hstep, fun _ _ htry => ?_⟩
      rw [toExchange, hpc] at htry
      cases htry
  | childWakeUp i =>
      obtain ⟨waiters, hwake, rfl⟩ := Option.map_eq_some_iff.mp h
      exact .inl rfl

/-- Without the waiting, a run of the threads is a run of the exchange. -/
theorem toExchange_reachable (h : (exchangeThreads child).Reachable s) :
    (exchange child).Reachable s.toExchange := by
  refine h.invariant (I := fun s => (exchange child).Reachable s.toExchange)
    Machine.Reachable.init fun s a s' hr hs hstep => ?_
  rcases ExchangeThreads.refines (threadsInv_of_reachable hr) hstep with heq | ⟨b, hb, -⟩
  · exact heq ▸ hs
  · exact hs.step hb

/-- And one in which no reset is found in mid-stream is one of these. -/
theorem toExchange_reachableBy
    (h : (exchangeThreads child).ReachableBy (fun s a => a.NoMidstreamReset s) s) :
    (exchange child).ReachableBy NoMidstreamReset s.toExchange := by
  refine h.invariant (I := fun s => (exchange child).ReachableBy NoMidstreamReset s.toExchange)
    Machine.ReachableBy.init fun s a s' hr hs hok hstep => ?_
  rcases ExchangeThreads.refines (threadsInv_of_reachable hr.reachable) hstep with
    heq | ⟨b, hb, hno⟩
  · exact heq ▸ hs
  · exact hs.step (hno hok) hb

/-- **The threads of an exchange.** Every state of every run is, without the waiting, one
that the exchange reaches with queues whose operations are single steps; and a thread that
sleeps in `pop` without having been woken has nothing to pop: the consumer no entry, the child
thread no signal. -/
theorem exchange_sleeps (h : (exchangeThreads child).Reachable s) :
    (exchange child).Reachable s.toExchange ∧
      (∀ w ∈ s.buffer_.waiters, s.consumer = .inNext ∧ (w.wake = .asleep → s.buffer_.xs_ = [])) ∧
      ∀ w ∈ s.signals_.waiters, s.childPc = .pop ∧ (w.wake = .asleep → s.signals_.xs_ = []) := by
  have hs := threadsInv_of_reachable h
  exact ⟨toExchange_reachable h,
    fun w hw => ⟨hs.buffer_.waits (List.ne_nil_of_mem hw), hs.buffer_.xs_eq_nil hw⟩,
    fun w hw => ⟨hs.signals_.waits (List.ne_nil_of_mem hw), hs.signals_.xs_eq_nil hw⟩⟩

end Refinement

/-- The consumer calls `next()` and goes to sleep, and the child thread pushes a tuple. -/
def sleepAndPush : List ThreadAction :=
  [.callNext, .pop, .child none, .child (some 0)]

/-- After the run `sleepAndPush` the consumer is in `next()` and has been notified; before the
push it slept, and the buffer was empty. -/
theorem exchange_sleeps_notified :
    ∃ s₁ s₂, (exchangeThreads (iterator [1, 2])).run (exchangeThreads (iterator [1, 2])).init
        (sleepAndPush.take 3) = some s₁ ∧
      s₁.buffer_.waiters = [⟨(), (), .asleep⟩] ∧ s₁.buffer_.xs_ = [] ∧
      (exchangeThreads (iterator [1, 2])).run (exchangeThreads (iterator [1, 2])).init
        sleepAndPush = some s₂ ∧
      s₂.buffer_.waiters = [⟨(), (), .notified⟩] ∧ s₂.consumer = .inNext := by
  have hrun₁ : ((exchangeThreads (iterator [1, 2])).run (exchangeThreads (iterator [1, 2])).init
      (sleepAndPush.take 3)).map (fun s => s.buffer_.waiters) = some [⟨(), (), .asleep⟩] := rfl
  have hrun₂ : ((exchangeThreads (iterator [1, 2])).run (exchangeThreads (iterator [1, 2])).init
      sleepAndPush).map (fun s => s.buffer_.waiters) = some [⟨(), (), .notified⟩] := rfl
  obtain ⟨s₁, hs₁, hwaiters₁⟩ := Option.map_eq_some_iff.mp hrun₁
  obtain ⟨s₂, hs₂, hwaiters₂⟩ := Option.map_eq_some_iff.mp hrun₂
  refine ⟨s₁, s₂, hs₁, hwaiters₁, ?_, hs₂, hwaiters₂, ?_⟩
  · exact ((exchange_sleeps (Machine.reachable_of_run hs₁)).2.1 _
      (by rw [hwaiters₁]; exact List.mem_cons_self)).2 rfl
  · exact ((exchange_sleeps (Machine.reachable_of_run hs₂)).2.1 _
      (by rw [hwaiters₂]; exact List.mem_cons_self)).1

/-! ### Calls return -/

section Progress

/-- How many tuples a state of a finite operator has left. -/
noncomputable def FiniteOperator.remaining {α : Type} (op : FiniteOperator α) (s : op.State) :
    ℕ :=
  (op.finite s).choose.length

/-- An operator yields one list from each state. -/
theorem Operator.Yields.unique {α : Type} {op : Operator α} {s : op.State} {xs ys : List α}
    (hx : op.Yields s xs) (hy : op.Yields s ys) : xs = ys := by
  induction xs generalizing s ys with
  | nil =>
      cases ys with
      | nil => rfl
      | cons y ys =>
          have hnone : (op.next s).1 = none := hx
          rw [hy.1] at hnone
          cases hnone
  | cons x xs ih =>
      cases ys with
      | nil =>
          have hnone : (op.next s).1 = none := hy
          rw [hx.1] at hnone
          cases hnone
      | cons y ys =>
          obtain rfl : x = y := Option.some.inj (hx.1.symm.trans hy.1)
          rw [ih hx.2 hy.2]

/-- A tuple less is left after it has been returned. -/
theorem FiniteOperator.remaining_next {α : Type} (op : FiniteOperator α) {s s' : op.State} {x : α}
    (h : op.next s = (some x, s')) : op.remaining s = op.remaining s' + 1 := by
  have hs' := (op.finite s').choose_spec
  have hs : op.Yields s (x :: (op.finite s').choose) := by
    rw [Operator.Yields, h]
    exact ⟨rfl, hs'⟩
  rw [remaining, (op.finite s).choose_spec.unique hs, List.length_cons, remaining]

variable {α : Type} {child : FiniteOperator α} {s s' : ExchangeThreads child.toOperator}

/-- What the two threads do by themselves: everything but new calls of the consumer and
wake-ups without a notification. -/
def ThreadAction.internal : ThreadAction → Prop
  | .pop | .resume _ | .signal _ | .child _ | .childResume _ => True
  | _ => False

/-- How many steps the child thread has left until it waits for a signal, reads one, or
returns. -/
noncomputable def ChildPc.work (remaining : ℕ) : ChildPc α → ℕ
  | .callNext => 3 * remaining + 3
  | .pushTuple _ => 3 * remaining + 5
  | .tryPop => 3 * remaining + 4
  | .clear => 2
  | .resetAndReturn => 1
  | .pushEnd => 2
  | .pop => 1
  | .exited => 0

/-- A popper that does not sleep has a step to make. -/
def Queue.awake {T : Type} (q : Queue Unit T) : ℕ :=
  if Waiter.asleep Queue.data_available_ q.waiters = 0 then 1 else 0

/-- What is left to be done: first the signals, then the work of the child thread, the
entries, and the threads that are awake. A push may wake its reader, so that it counts
more than an entry. -/
noncomputable def ExchangeThreads.measure (s : ExchangeThreads child.toOperator) : ℕ ×ₗ ℕ :=
  toLex (s.signals_.xs_.length + s.consumer.owes,
    3 * s.childPc.work (child.remaining s.childState) + s.buffer_.xs_.length +
      s.buffer_.awake + s.signals_.awake + 2 * s.consumer.owes)

/-! ### The measure -/

namespace Queue

variable {T : Type} {q q' : Queue Unit T} {popping : Prop}

/-- A queue for which nobody waits counts as awake. -/
theorem awake_eq_one (h : q.waiters = []) : q.awake = 1 := by
  simp [awake, h, Waiter.asleep]

/-- A queue counts once at most. -/
theorem awake_le_one : q.awake ≤ 1 := by
  rw [awake]
  split_ifs <;> omega

/-- A popper that finds the queue empty goes to sleep. -/
theorem awake_wait {xs : List T} (h : q.waiters = []) :
    ({ xs_ := xs, waiters := q.waiters ++ [⟨(), (), .asleep⟩] } : Queue Unit T).awake = 0 := by
  simp [awake, h, Waiter.asleep, data_available_]

/-- The only waiter is awake when it gets the lock. -/
theorem OnePopper.awake_of_resume {i : ℕ} {w : Waiter Unit Unit}
    {waiters : List (Waiter Unit Unit)} (h : q.OnePopper popping)
    (hresume : Waiter.resume i q.waiters = some (w, waiters)) : q.awake = 1 := by
  have hnil := (h.resume_eq_nil hresume).2
  obtain ⟨hwake, l₁, l₂, hws, rfl⟩ := Waiter.resume_cases hresume
  obtain ⟨rfl, rfl⟩ := List.append_eq_nil_iff.mp hnil
  obtain ⟨t, c, wake⟩ := w
  cases wake with
  | asleep => exact absurd rfl hwake
  | notified => simp [awake, hws, Waiter.asleep]
  | spurious => simp [awake, hws, Waiter.asleep]

end Queue

namespace ExchangeThreads

/-- The measure falls with the signals still to be read. -/
theorem measure_lt_of_fst (h : s'.signals_.xs_.length + s'.consumer.owes <
    s.signals_.xs_.length + s.consumer.owes) : s'.measure < s.measure :=
  Prod.Lex.toLex_lt_toLex.mpr (.inl h)

/-- With as many of them, it falls with the work that is left. -/
theorem measure_lt_of_snd
    (hfst : s'.signals_.xs_.length + s'.consumer.owes =
      s.signals_.xs_.length + s.consumer.owes)
    (hsnd : 3 * s'.childPc.work (child.remaining s'.childState) + s'.buffer_.xs_.length +
        s'.buffer_.awake + s'.signals_.awake + 2 * s'.consumer.owes <
      3 * s.childPc.work (child.remaining s.childState) + s.buffer_.xs_.length +
        s.buffer_.awake + s.signals_.awake + 2 * s.consumer.owes) : s'.measure < s.measure :=
  Prod.Lex.toLex_lt_toLex.mpr (.inr ⟨hfst, hsnd⟩)

/-- The consumer takes an entry or goes to sleep. -/
theorem measure_pop (q : Queue Unit (Entry α)) (hc : s.consumer = .inNext)
    (hxs : q.xs_ = s.buffer_.xs_) (hnil : q.waiters = []) (hawake : s.buffer_.awake = 1) :
    (s.pop q).measure < s.measure := by
  have howes : s.consumer.owes = 0 := by rw [hc]; rfl
  rw [pop, Queue.pop]
  cases hq : q.xs_ with
  | nil =>
      refine measure_lt_of_snd rfl ?_
      simp only [← hxs, hq, Queue.awake_wait hnil, hawake]
      omega
  | cons e b =>
      have hlen : s.buffer_.xs_.length = b.length + 1 := by rw [← hxs, hq, List.length_cons]
      have hrest : ({ q with xs_ := b } : Queue Unit (Entry α)).awake = 1 :=
        Queue.awake_eq_one hnil
      simp only
      split_ifs
      · refine measure_lt_of_snd rfl ?_
        simp only [hlen, hrest, hawake]
        omega
      · refine measure_lt_of_snd (by rw [howes]; rfl) ?_
        simp only [hlen, hrest, hawake, ConsumerPc.owes]
        omega

/-- The child thread reads a signal or goes to sleep. -/
theorem measure_childPop (q : Queue Unit Signal) (hxs : q.xs_ = s.signals_.xs_)
    (hnil : q.waiters = []) (hawake : s.signals_.awake = 1) :
    (s.childPop q).measure < s.measure := by
  rw [childPop, Queue.pop]
  cases hq : q.xs_ with
  | nil =>
      refine measure_lt_of_snd (by simp [← hxs, hq]) ?_
      simp only [Queue.awake_wait hnil, hawake]
      omega
  | cons signal ss =>
      have hlen : s.signals_.xs_.length = ss.length + 1 := by rw [← hxs, hq, List.length_cons]
      cases signal with
      | reset => exact measure_lt_of_fst (by simp only [hlen]; omega)
      | die => exact measure_lt_of_fst (by simp only [hlen]; omega)

/-- A push counts more than the entry and its reader that wakes up. -/
theorem measure_childPush {value : Option α} {pc : ChildPc α} {choice : Option ℕ}
    (hwork : pc.work (child.remaining s.childState) <
      s.childPc.work (child.remaining s.childState))
    (h : s.childPush value pc choice = some s') : s'.measure < s.measure := by
  obtain ⟨buffer_, -, hxs, rfl⟩ := childPush_eq_some h
  refine measure_lt_of_snd rfl ?_
  have hle : buffer_.awake ≤ 1 := Queue.awake_le_one
  simp only [hxs, List.length_append, List.length_singleton]
  omega

/-- Each step of the child thread makes the measure fall. -/
theorem measure_childStep {choice : Option ℕ} (h : s.childStep choice = some s') :
    s'.measure < s.measure := by
  simp only [childStep] at h
  cases hpc : s.childPc with
  | callNext =>
      simp only [hpc] at h
      split at h
      · rename_i t σ hnext
        cases h
        have hrem := child.remaining_next hnext
        refine measure_lt_of_snd rfl ?_
        simp only [hpc, ChildPc.work]
        omega
      · cases h
        refine measure_lt_of_snd rfl ?_
        simp only [hpc, ChildPc.work]
        omega
  | pushTuple t =>
      simp only [hpc] at h
      exact measure_childPush (by simp [hpc, ChildPc.work]) h
  | tryPop =>
      simp only [hpc, Queue.tryPop] at h
      cases hsig : s.signals_.xs_ with
      | nil =>
          simp only [hsig] at h
          cases h
          refine measure_lt_of_snd rfl ?_
          simp only [hpc, ChildPc.work]
          omega
      | cons signal ss =>
          cases signal with
          | reset =>
              simp only [hsig] at h
              cases h
              exact measure_lt_of_fst (by simp [hsig])
          | die =>
              simp only [hsig] at h
              cases h
              exact measure_lt_of_fst (by simp [hsig])
  | clear =>
      simp only [hpc] at h
      cases h
      refine measure_lt_of_snd rfl ?_
      have hxs : s.buffer_.clear.xs_.length = 0 := rfl
      have hawake : s.buffer_.clear.awake = s.buffer_.awake := rfl
      simp only [hpc, ChildPc.work, hxs, hawake]
      omega
  | resetAndReturn =>
      simp only [hpc] at h
      cases h
      refine measure_lt_of_snd rfl ?_
      simp only [hpc, ChildPc.work]
      omega
  | pushEnd =>
      simp only [hpc] at h
      exact measure_childPush (by simp [hpc, ChildPc.work]) h
  | pop =>
      simp only [hpc] at h
      split_ifs at h with hnil
      obtain rfl := Option.some.inj h
      exact measure_childPop _ rfl hnil (Queue.awake_eq_one hnil)
  | exited =>
      simp only [hpc] at h
      cases h

/-- **Every internal step leaves less to be done.** -/
theorem measure_lt (hs : ThreadsInv s) {a : ThreadAction} (ha : a.internal)
    (h : (exchangeThreads child.toOperator).step s a = some s') : s'.measure < s.measure := by
  cases a with
  | pop =>
      simp only [exchangeThreads, Option.ite_none_right_eq_some, Option.some.injEq] at h
      obtain ⟨⟨hc, hnil⟩, rfl⟩ := h
      exact measure_pop _ hc rfl hnil (Queue.awake_eq_one hnil)
  | resume i =>
      obtain ⟨⟨w, waiters⟩, hresume, rfl⟩ := Option.map_eq_some_iff.mp h
      obtain ⟨hc, hnil⟩ := hs.buffer_.resume_eq_nil hresume
      exact measure_pop _ hc rfl hnil (hs.buffer_.awake_of_resume hresume)
  | signal choice =>
      simp only [exchangeThreads, Option.ite_none_right_eq_some] at h
      obtain ⟨hc, h⟩ := h
      obtain ⟨signals_, -, hxs, rfl⟩ := send_eq_some h
      have hle : signals_.awake ≤ 1 := Queue.awake_le_one
      refine measure_lt_of_snd ?_ ?_
      · simp [hxs, hc, ConsumerPc.owes]
      · simp only [hc, ConsumerPc.owes]
        omega
  | child choice => exact measure_childStep h
  | childResume i =>
      obtain ⟨⟨w, waiters⟩, hresume, rfl⟩ := Option.map_eq_some_iff.mp h
      obtain ⟨hpc, hnil⟩ := hs.signals_.resume_eq_nil hresume
      exact measure_childPop { s.signals_ with waiters := waiters } rfl hnil
        (hs.signals_.awake_of_resume hresume)
  | callNext => exact ha.elim
  | wakeUp i => exact ha.elim
  | callReset => exact ha.elim
  | destroy choice => exact ha.elim
  | childWakeUp i => exact ha.elim

end ExchangeThreads

/-! ### At rest -/

/-- The destructor has sent `DIE`, and the child thread returns when it reads it. -/
theorem die_of_destroying {child : Operator α} {s : Exchange child}
    (h : (exchange child).Reachable s) (hc : s.consumer = .destroying) :
    .die ∈ s.signals_ ∨ s.childPc = .exited := by
  revert hc
  refine h.invariant
    (I := fun s => s.consumer = .destroying → .die ∈ s.signals_ ∨ s.childPc = .exited)
    (fun hc => by simp [exchange] at hc) fun s a s' _ hs hstep => ?_
  cases exchange_step_move hstep with
  | callNext hc => simp
  | skip e b hc hb htag => exact hs
  | take e b hc hb htag => simp
  | callReset hc => simp
  | signal hc => simp
  | destroy hc => simp
  | childSome t σ hpc hnext => simpa [hpc] using hs
  | childNone σ hpc hnext => simpa [hpc] using hs
  | pushTuple t hpc => simpa [hpc] using hs
  | noSignal hpc hsig => simpa [hpc] using hs
  | midReset ss hpc hsig => simpa [hpc, hsig] using hs
  | clear hpc => simpa [hpc] using hs
  | resetAndReturn hpc => simp
  | pushEnd hpc => simpa [hpc] using hs
  | endReset ss hpc hsig => simpa [hpc, hsig] using hs
  | die ss hpc hsig => simp

/-- Some waiter can be notified, or none sleeps. -/
theorem Queue.exists_push {T : Type} (q : Queue Unit T) (x : T) :
    ∃ choice q', q.push x choice = some q' := by
  by_cases hany : q.waiters.any (Waiter.sleepsOn Queue.data_available_) = true
  · obtain ⟨w, hw, hsleep⟩ := List.any_eq_true.mp hany
    obtain ⟨i, hi⟩ := List.mem_iff_getElem?.mp hw
    exact ⟨some i, _, by simp only [Queue.push, Waiter.notifyOne, hi, if_pos hsleep]; rfl⟩
  · exact ⟨none, _, by simp only [Queue.push, Waiter.notifyOne, if_neg hany]; rfl⟩

/-- A thread that cannot go on in `pop` has nothing to pop. -/
theorem Queue.OnePopper.eq_nil_of_blocked {T : Type} {q : Queue Unit T} {popping : Prop}
    (h : q.OnePopper popping) (hne : q.waiters ≠ [])
    (hblocked : ∀ i, Waiter.resume i q.waiters = none) : q.xs_ = [] := by
  obtain ⟨w, hw⟩ := List.exists_mem_of_ne_nil _ hne
  exact h.xs_eq_nil hw (Waiter.wake_of_resume_eq_none hblocked hw)

/-- **When neither thread can go on by itself**, the child thread has returned or waits for a
signal that has not been sent, and a consumer in `next()` waits for an entry that has not
been pushed. -/
theorem rest_of_quiescent (hs : ThreadsInv s)
    (hq : (exchangeThreads child.toOperator).Quiescent ThreadAction.internal s) :
    s.consumer ≠ .resetting ∧ (s.consumer = .inNext → s.buffer_.xs_ = []) ∧
      (s.childPc = .exited ∨ (s.childPc = .pop ∧ s.signals_.xs_ = [])) := by
  refine ⟨fun hc => ?_, fun hc => ?_, ?_⟩
  · obtain ⟨choice, q', hpush⟩ := s.signals_.exists_push .reset
    have hnone := hq (.signal choice) trivial
    simp [exchangeThreads, hc, ExchangeThreads.send, hpush] at hnone
  · have hne : s.buffer_.waiters ≠ [] := by
      intro hnil
      have hnone := hq .pop trivial
      simp [exchangeThreads, hc, hnil] at hnone
    refine hs.buffer_.eq_nil_of_blocked hne fun i => ?_
    simpa [exchangeThreads] using hq (.resume i) trivial
  · have hchild : ∀ choice, s.childStep choice = none := fun choice => hq (.child choice) trivial
    cases hpc : s.childPc with
    | callNext =>
        have hnone := hchild none
        simp only [ExchangeThreads.childStep, hpc] at hnone
        split at hnone <;> cases hnone
    | pushTuple t =>
        obtain ⟨choice, q', hpush⟩ := s.buffer_.exists_push ⟨s.num_resets, some t, s.num_resets_⟩
        have hnone := hchild choice
        simp [ExchangeThreads.childStep, hpc, ExchangeThreads.childPush, hpush] at hnone
    | tryPop =>
        have hnone := hchild none
        simp only [ExchangeThreads.childStep, hpc] at hnone
        split at hnone <;> cases hnone
    | clear =>
        have hnone := hchild none
        simp [ExchangeThreads.childStep, hpc] at hnone
    | resetAndReturn =>
        have hnone := hchild none
        simp [ExchangeThreads.childStep, hpc] at hnone
    | pushEnd =>
        obtain ⟨choice, q', hpush⟩ := s.buffer_.exists_push ⟨s.num_resets, none, s.num_resets_⟩
        have hnone := hchild choice
        simp [ExchangeThreads.childStep, hpc, ExchangeThreads.childPush, hpush] at hnone
    | pop =>
        have hne : s.signals_.waiters ≠ [] := by
          intro hnil
          have hnone := hchild none
          simp [ExchangeThreads.childStep, hpc, hnil] at hnone
        refine .inr ⟨rfl, hs.signals_.eq_nil_of_blocked hne fun i => ?_⟩
        simpa [exchangeThreads] using hq (.childResume i) trivial
    | exited => exact .inl rfl

/-- **Calls of an exchange return.** For every finite child and in every state of every run:
what the two threads do by themselves comes to an end in every schedule. When it has, no call
of `reset()` is under way, and if the destructor has been called, the child thread has
returned and can be joined. If the child thread has never found a reset in mid-stream, a call
of `next()` has returned as well, unless the consumer has been given the end marker since its
last reset. -/
theorem exchange_calls_return (child : FiniteOperator α)
    {s : ExchangeThreads child.toOperator}
    (h : (exchangeThreads child.toOperator).Reachable s) :
    (exchangeThreads child.toOperator).Settles ThreadAction.internal s ∧
      ((exchangeThreads child.toOperator).Quiescent ThreadAction.internal s →
        s.consumer ≠ .resetting ∧ (s.consumer = .destroying → s.childPc = .exited) ∧
        ((exchangeThreads child.toOperator).ReachableBy (fun s a => a.NoMidstreamReset s) s →
          s.consumer = .inNext → s.toExchange.Ended)) := by
  have hs := threadsInv_of_reachable h
  refine ⟨Machine.settles_of_measure (I := ThreadsInv) ExchangeThreads.measure
    (fun _ _ _ hs _ hstep => hs.step hstep)
    (fun _ _ _ hs ha hstep => ExchangeThreads.measure_lt hs ha hstep) hs, fun hq => ?_⟩
  obtain ⟨hreset, hnext, hchild⟩ := rest_of_quiescent hs hq
  have hreach := toExchange_reachable h
  refine ⟨hreset, fun hc => ?_, fun hby hc => ?_⟩
  · rcases die_of_destroying hreach hc with hdie | hexit
    · rcases hchild with hexit | ⟨-, hnil⟩
      · exact hexit
      · simp [ExchangeThreads.toExchange, hnil] at hdie
    · exact hexit
  · by_contra hended
    exact not_stuck (exchangeInv_of_reachable hreach)
      (patientInv_of_reachableBy (toExchange_reachableBy hby)) ⟨hc, hended, hnext hc, hchild⟩

end Progress

/-- The consumer calls `next()` and sleeps before the child thread has pushed anything, is
woken by the first push, returns, and runs the destructor; the child thread finds `DIE` after
the second tuple. -/
def sleepAndDestroy : List ThreadAction :=
  [.callNext, .pop, .child none, .child (some 0), .resume 0, .child none, .child none,
   .child none, .destroy none, .child none]

/-- The run `sleepAndDestroy` over the stream `1, 2`: the consumer has been given the first
tuple and can join the child thread, and was a waiter on the way. -/
theorem exchange_calls_return_destroyed : ∃ s,
    (exchangeThreads (iterator [1, 2])).run (exchangeThreads (iterator [1, 2])).init
      sleepAndDestroy = some s ∧
    s.results = [⟨0, some 1, 0⟩] ∧ s.consumer = .destroying ∧ s.childPc = .exited ∧
    (exchangeThreads (iterator [1, 2])).Settles ThreadAction.internal s := by
  have hrun : ((exchangeThreads (iterator [1, 2])).run (exchangeThreads (iterator [1, 2])).init
      sleepAndDestroy).map (fun s => (s.results, s.consumer, s.childPc)) =
      some ([⟨0, some 1, 0⟩], .destroying, .exited) := rfl
  obtain ⟨s, hs, heq⟩ := Option.map_eq_some_iff.mp hrun
  obtain ⟨hresults, heq⟩ := Prod.mk.inj heq
  obtain ⟨hconsumer, hchild⟩ := Prod.mk.inj heq
  exact ⟨s, hs, hresults, hconsumer, hchild,
    (exchange_calls_return (finiteIterator [1, 2]) (Machine.reachable_of_run hs)).1⟩

end LatticeFlow
