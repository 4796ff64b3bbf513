import Mathlib.Algebra.BigOperators.Fin
import Mathlib.Data.List.ReduceOption
import Mathlib.Data.List.TakeWhile
import LatticeFlow.Lib.CondVar
import LatticeFlow.Lib.History
import LatticeFlow.Lib.Machine
import LatticeFlow.Lib.Threads

/-!
# The Thread Pool

`ThreadPool` of `concurrency/thread_pool.cc` over `Queue` of `concurrency/queue.h`: workers
that pop functions from one queue and call them. The destructor pushes an empty optional for
each worker, a sentinel, and joins the workers; a worker that pops a sentinel returns.

A task is of an arbitrary type `F` and is known by its place among the tasks submitted. A
step is a critical section of the queue, or the return of a task. Which waiter a
`notify_one` wakes is part of the action. Tasks may be submitted at any time until the
destructor returns, also by tasks that are running; `earlyTasks` are those submitted before
the destructor was called. A worker that has not been created yet is one that has not moved.

The log of what was pushed, popped and finished is not part of the code.

## Main results

* `PoolInv`: the queue, the workers and the sentinels in every phase of the destructor.
* `threadPool_runs_each_task_once`: what holds in every state of every run.
-/

namespace LatticeFlow

/-! ### The queue -/

/-- `Queue`, with the calls of `pop` that wait; no other method waits. -/
structure Queue (Tid T : Type) where
  xs_ : List T := []
  waiters : List (Waiter Tid Unit) := []
  deriving DecidableEq, Repr

namespace Queue

variable {Tid T : Type}

/-- `data_available_`: every waiter waits on it. -/
def data_available_ (_ : Unit) : Bool := true

/-- `Queue::push`. -/
def push (q : Queue Tid T) (x : T) (choice : Option ℕ) : Option (Queue Tid T) :=
  (Waiter.notifyOne data_available_ choice q.waiters).map fun waiters =>
    { xs_ := q.xs_ ++ [x], waiters := waiters }

/-- `Queue::pop`, from the test of its loop: it returns the front element, or it waits. -/
def pop (q : Queue Tid T) (t : Tid) : Option T × Queue Tid T :=
  match q.xs_ with
  | [] => (none, { q with waiters := q.waiters ++ [⟨t, (), .asleep⟩] })
  | x :: xs => (some x, { q with xs_ := xs })

end Queue

/-! ### The pool -/

/-- Where a worker is in `DoWork`. -/
inductive DoWorkPc (F : Type)
  /-- Before the lock of `pop`. -/
  | popping
  /-- In the `wait` of `pop`. -/
  | waiting
  /-- In the call of a task. -/
  | running (f : F)
  /-- `DoWork` has returned. -/
  | exited
  deriving DecidableEq, Repr

/-- Where the destructor is: it has not been called, it pushes a sentinel for `threads_[i]`,
it joins `threads_[i]`, or it has returned. -/
inductive DestructorPc
  | notCalled
  | pushing (i : ℕ)
  | joining (i : ℕ)
  | returned
  deriving DecidableEq, Repr

/-- What happens to the tasks. -/
inductive PoolEvent (n : ℕ) (F : Type)
  /-- `submit` has put a task into the queue. -/
  | submitted (f : F)
  /-- The destructor is called. -/
  | destructorCalled
  /-- The destructor has put a sentinel into the queue. -/
  | sentinelPushed
  /-- `pop` has returned to a worker, which calls the task, or returns at a sentinel. -/
  | popped (w : Fin n) (x : Option F)
  /-- The task has returned to the worker. -/
  | finished (w : Fin n) (f : F)
  deriving DecidableEq, Repr

/-- A `ThreadPool` with `n` threads, and the log. -/
structure ThreadPool (n : ℕ) (F : Type) where
  threads_ : Fin n → DoWorkPc F := fun _ => .popping
  work_ : Queue (Fin n) (Option F) := {}
  destructor : DestructorPc := .notCalled
  log : List (PoolEvent n F) := []

/-- What moves the pool; `choice` is the waiter that is notified, if one is. -/
inductive PoolAction (n : ℕ) (F : Type)
  | submit (f : F) (choice : Option ℕ)
  /-- The destructor is called. -/
  | destruct
  /-- A turn of the first loop of the destructor. -/
  | pushSentinel (choice : Option ℕ)
  /-- A turn of the second loop of the destructor: a worker has exited. -/
  | join
  /-- A worker gets the lock of `pop`. -/
  | pop (w : Fin n)
  /-- A worker that waits in `pop` and is awake gets the lock again. -/
  | resume (i : ℕ)
  /-- A task returns. -/
  | finish (w : Fin n)
  /-- A worker that waits wakes up without a notification. -/
  | wakeUp (i : ℕ)
  deriving DecidableEq, Repr

/-- The steps that a worker makes by itself. A wake-up without a notification may happen,
but nothing can rely on it. -/
def PoolAction.ofWorker {n : ℕ} {F : Type} : PoolAction n F → Bool
  | .pop _ | .resume _ | .finish _ => true
  | _ => false

/-- The second loop of the destructor, at its condition. -/
def DestructorPc.joinLoop (n i : ℕ) : DestructorPc :=
  if i < n then .joining i else .returned

/-- The first loop of the destructor, at its condition. -/
def DestructorPc.pushLoop (n i : ℕ) : DestructorPc :=
  if i < n then .pushing i else .joinLoop n 0

namespace ThreadPool

variable {n : ℕ} {F : Type}

/-- `ThreadPool::submit`. -/
def submit (s : ThreadPool n F) (f : F) (choice : Option ℕ) : Option (ThreadPool n F) :=
  (s.work_.push (some f) choice).map fun work_ =>
    { s with work_ := work_, log := s.log ++ [.submitted f] }

/-- `work_.push({})`, for `threads_[i]`. -/
def pushSentinel (s : ThreadPool n F) (i : ℕ) (choice : Option ℕ) : Option (ThreadPool n F) :=
  (s.work_.push none choice).map fun work_ =>
    { s with work_ := work_, destructor := .pushLoop n (i + 1), log := s.log ++ [.sentinelPushed] }

/-- Where a worker is when `pop` has returned: the loop of `DoWork` tests the optional. -/
def popReturned : Option F → DoWorkPc F
  | some f => .running f
  | none => .exited

/-- A worker in `pop` has the lock of the queue. -/
def pop (s : ThreadPool n F) (w : Fin n) (work_ : Queue (Fin n) (Option F)) : ThreadPool n F :=
  match work_.pop w with
  | (none, work_) => { s with threads_ := Function.update s.threads_ w .waiting, work_ := work_ }
  | (some x, work_) =>
      { s with
        threads_ := Function.update s.threads_ w (popReturned x)
        work_ := work_
        log := s.log ++ [.popped w x] }

/-- The task has returned, and `pop` is called again. -/
def finish (s : ThreadPool n F) (w : Fin n) (f : F) : ThreadPool n F :=
  { s with
    threads_ := Function.update s.threads_ w .popping
    log := s.log ++ [.finished w f] }

end ThreadPool

/-- The pool and the threads that use it. -/
def threadPool (n : ℕ) (F : Type) : Machine (ThreadPool n F) (PoolAction n F) where
  init := {}
  step s
    | .submit f choice =>
        match s.destructor with
        | .returned => none
        | _ => s.submit f choice
    | .destruct =>
        match s.destructor with
        | .notCalled =>
            some { s with destructor := .pushLoop n 0, log := s.log ++ [.destructorCalled] }
        | _ => none
    | .pushSentinel choice =>
        match s.destructor with
        | .pushing i => s.pushSentinel i choice
        | _ => none
    | .join =>
        match s.destructor with
        | .joining i =>
            if h : i < n then
              match s.threads_ ⟨i, h⟩ with
              | .exited => some { s with destructor := .joinLoop n (i + 1) }
              | _ => none
            else none
        | _ => none
    | .pop w =>
        match s.threads_ w with
        | .popping => some (s.pop w s.work_)
        | _ => none
    | .resume i =>
        (Waiter.resume i s.work_.waiters).map fun r =>
          s.pop r.1.thread { s.work_ with waiters := r.2 }
    | .finish w =>
        match s.threads_ w with
        | .running f => some (s.finish w f)
        | _ => none
    | .wakeUp i =>
        (Waiter.wakeUp i s.work_.waiters).map fun waiters =>
          { s with work_ := { s.work_ with waiters := waiters } }


/-! ### The log -/

section Log

variable {n : ℕ} {F : Type}

/-- What was pushed into the queue, in order. -/
def pushedWork (log : List (PoolEvent n F)) : List (Option F) :=
  log.filterMap fun
    | .submitted f => some (some f)
    | .sentinelPushed => some none
    | _ => none

/-- What the workers popped, in order. -/
def poppedWork (log : List (PoolEvent n F)) : List (Option F) :=
  log.filterMap fun
    | .popped _ x => some x
    | _ => none

/-- The tasks submitted, in order. -/
def submittedTasks (log : List (PoolEvent n F)) : List F :=
  (pushedWork log).reduceOption

/-- The tasks started, in order. -/
def startedTasks (log : List (PoolEvent n F)) : List F :=
  (poppedWork log).reduceOption

/-- The tasks that have returned, in order. -/
def finishedTasks (log : List (PoolEvent n F)) : List F :=
  log.filterMap fun
    | .finished _ f => some f
    | _ => none

/-- The call of the destructor. -/
def PoolEvent.isDestructor : PoolEvent n F → Bool
  | .destructorCalled => true
  | _ => false

/-- The tasks submitted before the destructor was called. -/
def earlyTasks (log : List (PoolEvent n F)) : List F :=
  submittedTasks (log.takeWhile fun e => !e.isDestructor)

/-- The worker pops a sentinel. -/
def PoolEvent.takesSentinel (w : Fin n) : PoolEvent n F → Bool
  | .popped w' none => w' = w
  | _ => false

/-- How many sentinels a worker has popped. -/
def sentinelsTaken (w : Fin n) (log : List (PoolEvent n F)) : ℕ :=
  log.countP (PoolEvent.takesSentinel w)

variable (log : List (PoolEvent n F)) (f : F) (w : Fin n)

@[simp] theorem pushedWork_append (log' : List (PoolEvent n F)) :
    pushedWork (log ++ log') = pushedWork log ++ pushedWork log' :=
  List.filterMap_append

@[simp] theorem poppedWork_append (log' : List (PoolEvent n F)) :
    poppedWork (log ++ log') = poppedWork log ++ poppedWork log' :=
  List.filterMap_append

@[simp] theorem finishedTasks_append (log' : List (PoolEvent n F)) :
    finishedTasks (log ++ log') = finishedTasks log ++ finishedTasks log' :=
  List.filterMap_append

/-- The tasks started, over two parts of the log. -/
theorem startedTasks_append (log' : List (PoolEvent n F)) :
    startedTasks (log ++ log') = startedTasks log ++ startedTasks log' := by
  rw [startedTasks, poppedWork_append, List.reduceOption_append]
  rfl

/-- After the call of the destructor no task is early. -/
theorem earlyTasks_append_of_mem (h : .destructorCalled ∈ log) (log' : List (PoolEvent n F)) :
    earlyTasks (log ++ log') = earlyTasks log := by
  rw [earlyTasks, List.takeWhile_append, if_neg, ← earlyTasks]
  intro hlen
  have hall := List.takeWhile_eq_self_iff.mp ((List.takeWhile_prefix _).eq_of_length hlen)
  simpa [PoolEvent.isDestructor] using hall _ h

/-- Before the destructor is called no event is its call. -/
theorem not_isDestructor (h : .destructorCalled ∉ log) : ∀ e ∈ log, (!e.isDestructor) = true := by
  intro e he
  cases e with
  | destructorCalled => exact absurd he h
  | _ => rfl

/-- Before the call of the destructor every task is early. -/
theorem earlyTasks_of_not_mem (h : .destructorCalled ∉ log) :
    earlyTasks log = submittedTasks log := by
  rw [earlyTasks, List.takeWhile_eq_self_iff.mpr (not_isDestructor log h)]

/-- The early tasks are pushed first, and before the call of the destructor nothing else
is. -/
structure EarlyFirst (log : List (PoolEvent n F)) : Prop where
  early : (earlyTasks log).map some <+: pushedWork log
  uncalled : .destructorCalled ∉ log → pushedWork log = (earlyTasks log).map some

/-- One more event: a sentinel is pushed by the destructor only. -/
theorem EarlyFirst.append {log : List (PoolEvent n F)} (h : EarlyFirst log) {e : PoolEvent n F}
    (he : e = .sentinelPushed → .destructorCalled ∈ log) : EarlyFirst (log ++ [e]) := by
  by_cases hcalled : .destructorCalled ∈ log
  · refine ⟨?_, fun hnot => absurd (List.mem_append_left _ hcalled) hnot⟩
    rw [earlyTasks_append_of_mem log hcalled, pushedWork_append]
    exact h.early.trans (List.prefix_append _ _)
  · have hall := h.uncalled hcalled
    rw [earlyTasks_of_not_mem log hcalled] at hall
    suffices hpushed : pushedWork (log ++ [e]) = (earlyTasks (log ++ [e])).map some from
      ⟨hpushed ▸ List.prefix_rfl, fun _ => hpushed⟩
    cases e with
    | sentinelPushed => exact absurd (he rfl) hcalled
    | destructorCalled =>
        have hearly : earlyTasks (log ++ [.destructorCalled]) = submittedTasks log := by
          rw [earlyTasks, List.takeWhile_append_of_pos (not_isDestructor log hcalled)]
          exact congrArg submittedTasks (List.append_nil log)
        rw [hearly, pushedWork_append, ← hall]
        exact List.append_nil _
    | _ =>
        rw [earlyTasks_of_not_mem _ (by simpa using hcalled), submittedTasks, pushedWork_append,
          List.reduceOption_append, List.map_append, ← submittedTasks, ← hall]
        rfl

/-- What stands before a sentinel contains the early tasks. -/
theorem EarlyFirst.early_started {log : List (PoolEvent n F)} (h : EarlyFirst log)
    {xs : List (Option F)} (hxs : pushedWork log = poppedWork log ++ none :: xs) :
    earlyTasks log <+: startedTasks log := by
  have hsentinel : poppedWork log ++ [none] <+: pushedWork log := ⟨xs, by simp [hxs]⟩
  have hpopped : (earlyTasks log).map some <+: poppedWork log := by
    rcases List.prefix_or_prefix_of_prefix h.early hsentinel with hle | hle
    · rcases List.prefix_concat_iff.mp hle with heq | hle
      · have hmem : none ∈ (earlyTasks log).map some := by simp [heq]
        simp at hmem
      · exact hle
    · have hmem : none ∈ (earlyTasks log).map some := hle.subset (by simp)
      simp at hmem
  simpa [startedTasks, List.reduceOption] using hpopped.reduceOption

/-- The sentinels popped are those popped by one of the workers. -/
theorem countP_poppedWork :
    (poppedWork log).countP Option.isNone = ∑ w, sentinelsTaken w log := by
  induction log using List.reverseRecOn with
  | nil => simp [poppedWork, sentinelsTaken]
  | append_singleton log e ih =>
      simp only [sentinelsTaken, poppedWork_append, List.countP_append, ih,
        Finset.sum_add_distrib] at ih ⊢
      congr 1
      cases e with
      | popped w x =>
          cases x with
          | some f => simp [poppedWork, PoolEvent.takesSentinel]
          | none => simp [poppedWork, PoolEvent.takesSentinel, List.countP_cons]
      | _ => simp [poppedWork, PoolEvent.takesSentinel]

end Log

/-! ### The invariant -/

section Invariant

variable {n : ℕ} {F : Type} {s s' : ThreadPool n F}

/-- The task that a worker is running. -/
def DoWorkPc.task : DoWorkPc F → Option F
  | .running f => some f
  | _ => none

/-- Whether `DoWork` has returned. -/
def DoWorkPc.isExited : DoWorkPc F → Bool
  | .exited => true
  | _ => false

/-- How many sentinels the destructor has pushed. -/
def DestructorPc.sentinels (n : ℕ) : DestructorPc → ℕ
  | .notCalled => 0
  | .pushing i => i
  | .joining _ | .returned => n

/-- A sentinel is popped after the call of the destructor and after the early tasks. -/
def SentinelLast (past : List (PoolEvent n F)) (e : PoolEvent n F) : Prop :=
  ∀ w, e = .popped w none → .destructorCalled ∈ past ∧ earlyTasks past <+: startedTasks past

/-- **The invariant of the pool.** -/
structure PoolInv (s : ThreadPool n F) : Prop where
  fifo : pushedWork s.log = poppedWork s.log ++ s.work_.xs_
  served : Waiter.Served Queue.data_available_ s.work_.xs_.length s.work_.waiters
  waiting : ∀ w, s.threads_ w = .waiting ↔ w ∈ s.work_.waiters.map Waiter.thread
  waiters_nodup : (s.work_.waiters.map Waiter.thread).Nodup
  pushing : ∀ i, s.destructor = .pushing i → i < n
  pushed : (pushedWork s.log).countP Option.isNone = s.destructor.sentinels n
  taken : ∀ w, sentinelsTaken w s.log = if (s.threads_ w).isExited then 1 else 0
  called : s.destructor ≠ .notCalled → .destructorCalled ∈ s.log
  early : EarlyFirst s.log
  last : EachAfter SentinelLast s.log
  completed : (startedTasks s.log).Perm (finishedTasks s.log ++ held DoWorkPc.task s.threads_)

/-- At the beginning there are no tasks, and nobody waits. -/
theorem PoolInv.init : PoolInv ({} : ThreadPool n F) where
  fifo := rfl
  served h := absurd h (Nat.lt_irrefl 0)
  waiting w := by simp
  waiters_nodup := List.nodup_nil
  pushing i h := by cases h
  pushed := rfl
  taken w := rfl
  called h := absurd rfl h
  early := ⟨List.prefix_rfl, fun _ => rfl⟩
  last := EachAfter.nil
  completed := by simp [startedTasks, poppedWork, finishedTasks, held, DoWorkPc.task]

/-- Something is pushed: a task, or a sentinel by the destructor. -/
theorem PoolInv.push {x : Option F} {e : PoolEvent n F} {choice : Option ℕ}
    {work_ : Queue (Fin n) (Option F)} {d : DestructorPc} (hinv : PoolInv s)
    (hwork : s.work_.push x choice = some work_)
    (he : (∃ f, x = some f ∧ e = .submitted f ∧ d = s.destructor) ∨
      ∃ i, x = none ∧ e = .sentinelPushed ∧ s.destructor = .pushing i ∧ d = .pushLoop n (i + 1)) :
    PoolInv { s with work_ := work_, destructor := d, log := s.log ++ [e] } := by
  obtain ⟨waiters, hnotify, rfl⟩ := Option.map_eq_some_iff.mp hwork
  have hthreads := Waiter.threads_notifyOne hnotify
  have hpushed : pushedWork [e] = [x] := by
    rcases he with ⟨f, rfl, rfl, -⟩ | ⟨i, rfl, rfl, -⟩ <;> rfl
  have hpopped : poppedWork [e] = [] := by
    rcases he with ⟨f, rfl, rfl, -⟩ | ⟨i, rfl, rfl, -⟩ <;> rfl
  have hfinished : finishedTasks [e] = [] := by
    rcases he with ⟨f, rfl, rfl, -⟩ | ⟨i, rfl, rfl, -⟩ <;> rfl
  have hcalled : d ≠ .notCalled → .destructorCalled ∈ s.log := by
    intro hd
    rcases he with ⟨f, -, -, rfl⟩ | ⟨i, -, -, hphase, -⟩
    · exact hinv.called hd
    · exact hinv.called (by simp [hphase])
  refine ⟨?_, ?_, ?_, ?_, ?_, ?_, ?_, ?_, ?_, ?_, ?_⟩
  · rw [pushedWork_append, poppedWork_append, hpushed, hpopped, hinv.fifo]
    simp
  · exact (hinv.served.notifyOne hnotify).mono (by simp)
  · intro w
    rw [hthreads]
    exact hinv.waiting w
  · rw [hthreads]
    exact hinv.waiters_nodup
  · intro i hi
    rcases he with ⟨f, -, -, rfl⟩ | ⟨j, -, -, hphase, rfl⟩
    · exact hinv.pushing i hi
    · simp only [DestructorPc.pushLoop, DestructorPc.joinLoop] at hi
      split_ifs at hi with hlt
      obtain rfl : j + 1 = i := DestructorPc.pushing.inj hi
      exact hlt
  · rw [pushedWork_append, hpushed, List.countP_append, hinv.pushed]
    rcases he with ⟨f, rfl, -, rfl⟩ | ⟨i, rfl, -, hphase, rfl⟩
    · rfl
    · have hi := hinv.pushing i hphase
      rw [hphase]
      simp only [DestructorPc.pushLoop, DestructorPc.joinLoop]
      split_ifs <;> simp [DestructorPc.sentinels] <;> omega
  · intro w
    rw [← hinv.taken w, sentinelsTaken, sentinelsTaken, List.countP_append]
    rcases he with ⟨f, -, rfl, -⟩ | ⟨i, -, rfl, -⟩ <;> rfl
  · exact fun hd => List.mem_append_left _ (hcalled hd)
  · refine hinv.early.append fun hsentinel => ?_
    rcases he with ⟨f, -, rfl, -⟩ | ⟨i, -, -, hphase, -⟩
    · cases hsentinel
    · exact hinv.called (by simp [hphase])
  · refine hinv.last.append fun w hw => ?_
    rcases he with ⟨f, -, rfl, -⟩ | ⟨i, -, rfl, -⟩ <;> cases hw
  · rw [startedTasks_append, finishedTasks_append, hfinished]
    simpa [startedTasks, hpopped] using hinv.completed

/-- A worker in `pop` has the lock, and is a waiter no longer. -/
structure InPop (s : ThreadPool n F) (w : Fin n) (q : Queue (Fin n) (Option F)) : Prop where
  xs_eq : q.xs_ = s.work_.xs_
  served : Waiter.Served Queue.data_available_ (q.xs_.length - 1) q.waiters
  inPop : s.threads_ w = .popping ∨ s.threads_ w = .waiting
  others : ∀ v, v ≠ w → (s.threads_ v = .waiting ↔ v ∈ q.waiters.map Waiter.thread)
  not_mem : w ∉ q.waiters.map Waiter.thread
  nodup : (q.waiters.map Waiter.thread).Nodup

/-- The queue is empty and the worker waits. -/
theorem PoolInv.pop_nil {w : Fin n} {q : Queue (Fin n) (Option F)} (hinv : PoolInv s)
    (hq : InPop s w q) (hxs : q.xs_ = []) : PoolInv (s.pop w q) := by
  have hpop : s.pop w q =
      { s with
        threads_ := Function.update s.threads_ w .waiting
        work_ := { q with waiters := q.waiters ++ [⟨w, (), .asleep⟩] } } := by
    simp [ThreadPool.pop, Queue.pop, hxs]
  have hpc : ((s.threads_ w).task = none) ∧ (s.threads_ w).isExited = false := by
    rcases hq.inPop with hpc | hpc <;> simp [hpc, DoWorkPc.task, DoWorkPc.isExited]
  rw [hpop]
  refine ⟨?_, ?_, ?_, ?_, hinv.pushing, hinv.pushed, ?_, hinv.called, hinv.early, hinv.last, ?_⟩
  · rw [hinv.fifo, hq.xs_eq]
  · rw [hxs]
    exact Waiter.served_zero
  · intro v
    by_cases hv : v = w
    · subst hv
      simp
    · simp [hv, hq.others v hv]
  · rw [List.map_append, List.map_singleton, List.nodup_append]
    refine ⟨hq.nodup, List.nodup_singleton _, fun v hv u hu hvu => hq.not_mem ?_⟩
    obtain rfl : u = w := List.mem_singleton.mp hu
    exact hvu ▸ hv
  · intro v
    rw [hinv.taken v]
    by_cases hv : v = w
    · subst hv
      rw [hpc.2]
      simp [DoWorkPc.isExited]
    · simp only [Function.update_of_ne hv]
  · rw [held_update (hpc.1 ▸ rfl)]
    exact hinv.completed

/-- `pop` returns an element to the worker. -/
theorem PoolInv.pop_cons {w : Fin n} {q : Queue (Fin n) (Option F)} {x : Option F}
    {xs : List (Option F)} (hinv : PoolInv s) (hq : InPop s w q) (hxs : q.xs_ = x :: xs) :
    PoolInv (s.pop w q) := by
  have hpop : s.pop w q =
      { s with
        threads_ := Function.update s.threads_ w (ThreadPool.popReturned x)
        work_ := { q with xs_ := xs }
        log := s.log ++ [.popped w x] } := by
    simp [ThreadPool.pop, Queue.pop, hxs]
  have hpc : ((s.threads_ w).task = none) ∧ (s.threads_ w).isExited = false := by
    rcases hq.inPop with hpc | hpc <;> simp [hpc, DoWorkPc.task, DoWorkPc.isExited]
  have hfifo := hinv.fifo
  rw [← hq.xs_eq, hxs] at hfifo
  have hpushed : pushedWork (s.log ++ [.popped w x]) = pushedWork s.log := by
    simp [pushedWork]
  rw [hpop]
  refine ⟨?_, ?_, ?_, hq.nodup, hinv.pushing, ?_, ?_, ?_, ?_, ?_, ?_⟩
  · rw [hpushed, hfifo, poppedWork_append]
    simp [poppedWork]
  · have hserved := hq.served
    rwa [hxs] at hserved
  · intro v
    by_cases hv : v = w
    · subst hv
      cases x <;> simpa [ThreadPool.popReturned] using hq.not_mem
    · simp only [Function.update_of_ne hv]
      exact hq.others v hv
  · rw [hpushed]
    exact hinv.pushed
  · intro v
    rw [sentinelsTaken, List.countP_append, ← sentinelsTaken, hinv.taken v]
    by_cases hv : v = w
    · subst hv
      rw [hpc.2]
      cases x <;> simp [ThreadPool.popReturned, DoWorkPc.isExited, PoolEvent.takesSentinel]
    · cases x <;> simp [hv, PoolEvent.takesSentinel, Ne.symm hv]
  · exact fun hd => List.mem_append_left _ (hinv.called hd)
  · exact hinv.early.append fun h => by cases h
  · refine hinv.last.append fun v hv => ?_
    obtain ⟨rfl, rfl⟩ := PoolEvent.popped.inj hv
    -- A sentinel in the queue has been pushed by the destructor.
    have hcount := hinv.pushed
    rw [hfifo] at hcount
    refine ⟨hinv.called fun hd => ?_, hinv.early.early_started hfifo⟩
    simp [hd, DestructorPc.sentinels] at hcount
  · rw [startedTasks_append, finishedTasks_append]
    cases x with
    | none =>
        have hnone : (ThreadPool.popReturned (none : Option F)).task = (s.threads_ w).task :=
          hpc.1.symm
        rw [held_update hnone]
        simpa [startedTasks, poppedWork, finishedTasks] using hinv.completed
    | some f =>
        have hheld := held_acquire (p := ThreadPool.popReturned (some f)) (x := f) hpc.1 rfl
        refine (hinv.completed.append_right [f]).trans ?_
        simp only [finishedTasks, List.filterMap_cons_none, List.filterMap_nil, List.append_nil,
          List.append_assoc]
        exact (List.perm_append_singleton f _ |>.trans hheld.symm).append_left _

/-- A worker that has the lock takes a task, or waits. -/
theorem PoolInv.pop {w : Fin n} {q : Queue (Fin n) (Option F)} (hinv : PoolInv s)
    (hq : InPop s w q) : PoolInv (s.pop w q) := by
  cases hxs : q.xs_ with
  | nil => exact hinv.pop_nil hq hxs
  | cons x xs => exact hinv.pop_cons hq hxs

/-- A worker calls `pop`. -/
theorem PoolInv.inPop {w : Fin n} (hinv : PoolInv s) (hw : s.threads_ w = .popping) :
    InPop s w s.work_ where
  xs_eq := rfl
  served := hinv.served.mono (Nat.sub_le _ _)
  inPop := .inl hw
  others v _ := hinv.waiting v
  not_mem h := by
    rw [← hinv.waiting w, hw] at h
    cases h
  nodup := hinv.waiters_nodup

/-- A worker that waits in `pop` gets the lock again. -/
theorem PoolInv.inPop_resume {i : ℕ} {x : Waiter (Fin n) Unit}
    {waiters : List (Waiter (Fin n) Unit)} (hinv : PoolInv s)
    (hresume : Waiter.resume i s.work_.waiters = some (x, waiters)) :
    InPop s x.thread { s.work_ with waiters := waiters } := by
  obtain ⟨-, l₁, l₂, hws, rfl⟩ := Waiter.resume_cases hresume
  have hperm : (s.work_.waiters.map Waiter.thread).Perm
      (x.thread :: (l₁ ++ l₂).map Waiter.thread) := by
    rw [hws]
    exact List.perm_middle.map Waiter.thread
  obtain ⟨hnot, hnodup⟩ := List.nodup_cons.mp (hperm.nodup_iff.mp hinv.waiters_nodup)
  refine ⟨rfl, hinv.served.resume hresume, .inr ?_, fun v hv => ?_, hnot, hnodup⟩
  · rw [hinv.waiting, hperm.mem_iff]
    exact List.mem_cons_self
  · rw [hinv.waiting, hperm.mem_iff, List.mem_cons, or_iff_right hv]

/-- A task returns. -/
theorem PoolInv.finish {w : Fin n} {f : F} (hinv : PoolInv s) (hw : s.threads_ w = .running f) :
    PoolInv (s.finish w f) := by
  have hpushed : pushedWork (s.log ++ [.finished w f]) = pushedWork s.log := by
    simp [pushedWork]
  have hpopped : poppedWork (s.log ++ [.finished w f]) = poppedWork s.log := by
    simp [poppedWork]
  refine ⟨?_, hinv.served, ?_, hinv.waiters_nodup, hinv.pushing, ?_, ?_, ?_, ?_, ?_, ?_⟩
  · simp only [ThreadPool.finish, hpushed, hpopped]
    exact hinv.fifo
  · intro v
    simp only [ThreadPool.finish]
    rw [← hinv.waiting v]
    by_cases hv : v = w
    · subst hv
      simp [hw]
    · rw [Function.update_of_ne hv]
  · simp only [ThreadPool.finish, hpushed]
    exact hinv.pushed
  · intro v
    simp only [ThreadPool.finish, sentinelsTaken, List.countP_append]
    rw [← sentinelsTaken, hinv.taken v]
    by_cases hv : v = w
    · subst hv
      simp [hw, DoWorkPc.isExited, PoolEvent.takesSentinel]
    · simp [hv, PoolEvent.takesSentinel]
  · exact fun hd => List.mem_append_left _ (hinv.called hd)
  · exact hinv.early.append fun h => by cases h
  · exact hinv.last.append fun v hv => by cases hv
  · have hheld : (held DoWorkPc.task s.threads_).Perm
        (f :: held DoWorkPc.task (Function.update s.threads_ w .popping)) :=
      held_release (by rw [hw]; rfl) rfl
    have hstarted : startedTasks (s.log ++ [.finished w f]) = startedTasks s.log := by
      rw [startedTasks, hpopped, startedTasks]
    simp only [ThreadPool.finish, hstarted, finishedTasks_append, List.append_assoc]
    exact hinv.completed.trans (hheld.append_left _)

/-- A worker wakes up without a notification. -/
theorem PoolInv.wakeUp {i : ℕ} {waiters : List (Waiter (Fin n) Unit)} (hinv : PoolInv s)
    (hwake : Waiter.wakeUp i s.work_.waiters = some waiters) :
    PoolInv { s with work_ := { s.work_ with waiters := waiters } } := by
  have hthreads := Waiter.threads_wakeUp hwake
  exact { hinv with
    served := hinv.served.wakeUp hwake
    waiting := fun w => by
      rw [hthreads]
      exact hinv.waiting w
    waiters_nodup := by
      rw [hthreads]
      exact hinv.waiters_nodup }

/-- The destructor is called. -/
theorem PoolInv.destruct (hinv : PoolInv s) (hphase : s.destructor = .notCalled) :
    PoolInv { s with destructor := .pushLoop n 0, log := s.log ++ [.destructorCalled] } := by
  have hpushed : pushedWork (s.log ++ [.destructorCalled]) = pushedWork s.log := by
    simp [pushedWork]
  have hpopped : poppedWork (s.log ++ [.destructorCalled]) = poppedWork s.log := by
    simp [poppedWork]
  refine ⟨?_, hinv.served, hinv.waiting, hinv.waiters_nodup, ?_, ?_, ?_, ?_, ?_, ?_, ?_⟩
  · rw [hpushed, hpopped]
    exact hinv.fifo
  · intro i hi
    simp only [DestructorPc.pushLoop, DestructorPc.joinLoop] at hi
    split_ifs at hi with hlt
    obtain rfl : 0 = i := DestructorPc.pushing.inj hi
    exact hlt
  · rw [hpushed, hinv.pushed, hphase]
    simp only [DestructorPc.pushLoop, DestructorPc.joinLoop]
    split_ifs <;> simp [DestructorPc.sentinels]
    omega
  · intro w
    rw [← hinv.taken w, sentinelsTaken, sentinelsTaken, List.countP_append]
    rfl
  · exact fun _ => List.mem_append_right _ (List.mem_singleton_self _)
  · exact hinv.early.append fun h => by cases h
  · exact hinv.last.append fun w hw => by cases hw
  · rw [startedTasks, hpopped, finishedTasks_append]
    simpa [startedTasks, finishedTasks] using hinv.completed

/-- A worker has been joined. -/
theorem PoolInv.join {i : ℕ} (hinv : PoolInv s) (hphase : s.destructor = .joining i) :
    PoolInv { s with destructor := .joinLoop n (i + 1) } := by
  have hcalled : .destructorCalled ∈ s.log := hinv.called (by simp [hphase])
  refine { hinv with pushing := fun j hj => ?_, pushed := ?_, called := fun _ => hcalled }
  · simp only [DestructorPc.joinLoop] at hj
    split_ifs at hj
  · rw [hinv.pushed, hphase, DestructorPc.joinLoop]
    split_ifs <;> rfl

/-- **The invariant** holds in every state of every run. -/
theorem poolInv_of_reachable (hr : (threadPool n F).Reachable s) : PoolInv s := by
  refine hr.invariant PoolInv.init ?_
  intro s a s' _ hinv hs
  cases a with
  | submit f choice =>
      simp only [threadPool] at hs
      split at hs
      · cases hs
      · obtain ⟨work_, hwork, rfl⟩ := Option.map_eq_some_iff.mp hs
        exact hinv.push hwork (.inl ⟨f, rfl, rfl, rfl⟩)
  | destruct =>
      simp only [threadPool] at hs
      split at hs
      · rename_i hphase
        obtain rfl := Option.some.inj hs
        exact hinv.destruct hphase
      · cases hs
  | pushSentinel choice =>
      simp only [threadPool] at hs
      split at hs
      · rename_i i hphase
        obtain ⟨work_, hwork, rfl⟩ := Option.map_eq_some_iff.mp hs
        exact hinv.push hwork (.inr ⟨i, rfl, rfl, hphase, rfl⟩)
      · cases hs
  | join =>
      simp only [threadPool] at hs
      split at hs
      · rename_i i hphase
        split_ifs at hs
        split at hs
        · obtain rfl := Option.some.inj hs
          exact hinv.join hphase
        · cases hs
      · cases hs
  | pop w =>
      simp only [threadPool] at hs
      split at hs
      · rename_i hw
        obtain rfl := Option.some.inj hs
        exact hinv.pop (hinv.inPop hw)
      · cases hs
  | resume i =>
      obtain ⟨⟨x, waiters⟩, hresume, rfl⟩ := Option.map_eq_some_iff.mp hs
      exact hinv.pop (hinv.inPop_resume hresume)
  | finish w =>
      simp only [threadPool] at hs
      split at hs
      · rename_i f hw
        obtain rfl := Option.some.inj hs
        exact hinv.finish hw
      · cases hs
  | wakeUp i =>
      obtain ⟨waiters, hwake, rfl⟩ := Option.map_eq_some_iff.mp hs
      exact hinv.wakeUp hwake

/-! ### Each task once, and the end of the workers -/

/-- No worker can step. -/
def Stuck (s : ThreadPool n F) : Prop :=
  ∀ a : PoolAction n F, a.ofWorker = true → (threadPool n F).step s a = none

/-- A worker that cannot step waits or has exited. -/
theorem Stuck.threads_ (h : Stuck s) (w : Fin n) :
    s.threads_ w = .waiting ∨ s.threads_ w = .exited := by
  have hpop := h (.pop w) rfl
  have hfinish := h (.finish w) rfl
  simp only [threadPool] at hpop hfinish
  cases hw : s.threads_ w with
  | popping => simp [hw] at hpop
  | waiting => exact .inl rfl
  | running f => simp [hw] at hfinish
  | exited => exact .inr rfl

/-- A worker that waits and cannot step sleeps. -/
theorem Stuck.wake (h : Stuck s) {x : Waiter (Fin n) Unit} (hx : x ∈ s.work_.waiters) :
    x.wake = .asleep :=
  Waiter.wake_of_resume_eq_none (fun i => Option.map_eq_none_iff.mp (h (.resume i) rfl)) hx

/-- If no worker can step and one of them waits, there is nothing in the queue. -/
theorem PoolInv.xs_eq_nil (hinv : PoolInv s) (hstuck : Stuck s) {w : Fin n}
    (hw : s.threads_ w = .waiting) : s.work_.xs_ = [] := by
  obtain ⟨x, hx, -⟩ := List.mem_map.mp ((hinv.waiting w).mp hw)
  have hasleep : 0 < Waiter.asleep Queue.data_available_ s.work_.waiters := by
    refine List.countP_pos_iff.mpr ⟨x, hx, ?_⟩
    simp [Waiter.sleepsOn, Queue.data_available_, hstuck.wake hx]
  have hnotified : Waiter.notified Queue.data_available_ s.work_.waiters = 0 :=
    List.countP_eq_zero.mpr fun y hy => by simp [Waiter.notifiedOn, hstuck.wake hy]
  have hlen := hinv.served hasleep
  exact List.length_eq_zero_iff.mp (by omega)

/-- The sentinels that have been popped are as many as the workers that have exited. -/
theorem PoolInv.countP_popped (hinv : PoolInv s) :
    (poppedWork s.log).countP Option.isNone =
      (Finset.univ.filter fun w => (s.threads_ w).isExited = true).card := by
  rw [countP_poppedWork, Finset.card_filter]
  exact Finset.sum_congr rfl fun w _ => hinv.taken w

/-- **If the destructor joins and no worker can step**, all workers have exited. -/
theorem PoolInv.exited (hinv : PoolInv s) (hpushed : s.destructor.sentinels n = n)
    (hstuck : Stuck s) (w : Fin n) : s.threads_ w = .exited := by
  refine (hstuck.threads_ w).resolve_left fun hw => ?_
  -- All sentinels have been popped, so that all workers have exited.
  have hall := hinv.countP_popped
  have hfifo := hinv.fifo
  rw [hinv.xs_eq_nil hstuck hw, List.append_nil] at hfifo
  rw [← hfifo, hinv.pushed, hpushed] at hall
  have huniv := (Finset.card_eq_iff_eq_univ _).mp (hall.symm.trans (Fintype.card_fin n).symm)
  have hmem := Finset.mem_univ w
  rw [← huniv] at hmem
  have hexited := (Finset.mem_filter.mp hmem).2
  rw [hw] at hexited
  cases hexited

/-- **Every task once, and then the end.** For any number of workers, any tasks and any
interleaving, in every state of every run: the tasks started are the first ones submitted,
each once and in order, and each task that has returned was started; no worker pops more
than one sentinel, and none pops one before all tasks submitted before the destructor have
been popped. If the destructor joins and no worker can step, all workers have exited, each
at its one sentinel, the queue holds no sentinel, and every task submitted before the
destructor was started and has returned, as has every other one that was started. -/
theorem threadPool_runs_each_task_once (hn : 0 < n) (hr : (threadPool n F).Reachable s) :
    startedTasks s.log <+: submittedTasks s.log ∧
      (finishedTasks s.log).Subperm (startedTasks s.log) ∧
      (∀ w, sentinelsTaken w s.log ≤ 1) ∧
      (∀ past w later, s.log = past ++ .popped w none :: later →
        earlyTasks s.log <+: startedTasks past) ∧
      ((∃ i, s.destructor = .joining i) → Stuck s →
        (∀ w, s.threads_ w = .exited) ∧ (∀ w, sentinelsTaken w s.log = 1) ∧
          none ∉ s.work_.xs_ ∧ earlyTasks s.log <+: startedTasks s.log ∧
          (finishedTasks s.log).Perm (startedTasks s.log)) := by
  have hinv := poolInv_of_reachable hr
  have hlast : ∀ past w later, s.log = past ++ .popped w none :: later →
      earlyTasks s.log <+: startedTasks past := by
    intro past w later hlog
    obtain ⟨hcalled, hearly⟩ := hinv.last past _ later hlog w rfl
    rwa [hlog, earlyTasks_append_of_mem past hcalled]
  refine ⟨?_, ?_, fun w => ?_, hlast, ?_⟩
  · have hprefix : poppedWork s.log <+: pushedWork s.log := ⟨_, hinv.fifo.symm⟩
    exact hprefix.reduceOption
  · exact (List.sublist_append_left _ _).subperm.trans hinv.completed.symm.subperm
  · rw [hinv.taken w]
    split_ifs <;> simp
  · rintro ⟨i, hphase⟩ hstuck
    have hpushed : s.destructor.sentinels n = n := by rw [hphase]; rfl
    have hexited := hinv.exited hpushed hstuck
    have htaken : ∀ w, sentinelsTaken w s.log = 1 := fun w => by
      rw [hinv.taken w, hexited w]
      rfl
    refine ⟨hexited, htaken, ?_, ?_, ?_⟩
    · -- As many sentinels have been popped as were pushed.
      have hcount := hinv.pushed
      rw [hinv.fifo, List.countP_append, countP_poppedWork, hpushed] at hcount
      simp only [htaken, Finset.sum_const, Finset.card_univ, Fintype.card_fin, smul_eq_mul,
        mul_one] at hcount
      have hzero : s.work_.xs_.countP Option.isNone = 0 := by omega
      exact fun hmem => List.countP_eq_zero.mp hzero none hmem rfl
    · have hpos : 0 < sentinelsTaken ⟨0, hn⟩ s.log := by
        rw [htaken]
        exact Nat.one_pos
      obtain ⟨e, he, htakes⟩ := List.countP_pos_iff.mp hpos
      obtain ⟨past, later, hlog⟩ := List.append_of_mem he
      cases e with
      | popped w x =>
          cases x with
          | some f => cases htakes
          | none =>
              refine (hlast past w later hlog).trans ?_
              rw [hlog, startedTasks_append]
              exact List.prefix_append _ _
      | _ => cases htakes
    · have hnone : held DoWorkPc.task s.threads_ = [] := by
        refine List.filterMap_eq_nil_iff.mpr fun w _ => ?_
        rw [hexited w]
        rfl
      have hcompleted := hinv.completed
      rw [hnone, List.append_nil] at hcompleted
      exact hcompleted.symm

end Invariant

/-- Two workers, two tasks and the destructor: one worker runs both tasks; the other one waits,
is notified of the first task, and goes on when only sentinels are left. -/
def oneWorkerRunsBoth : List (PoolAction 2 ℕ) :=
  [.pop 1, .submit 7 (some 0), .submit 8 none, .pop 0, .destruct, .pushSentinel none, .finish 0,
    .pop 0, .pushSentinel none, .resume 0, .finish 0, .pop 0]

/-- After the run `oneWorkerRunsBoth` both tasks have returned and both workers have
exited. -/
theorem threadPool_runs_each_task_once_two_workers : ∃ s,
    (threadPool 2 ℕ).run (threadPool 2 ℕ).init oneWorkerRunsBoth = some s ∧
      s.destructor = .joining 0 ∧ finishedTasks s.log = [7, 8] ∧
      earlyTasks s.log <+: startedTasks s.log ∧ none ∉ s.work_.xs_ := by
  have hrun : ((threadPool 2 ℕ).run (threadPool 2 ℕ).init oneWorkerRunsBoth).map (fun s =>
      (s.destructor, finishedTasks s.log, s.work_.waiters, s.threads_ 0, s.threads_ 1)) =
        some (.joining 0, [7, 8], [], .exited, .exited) :=
    rfl
  obtain ⟨s, hs, heq⟩ := Option.map_eq_some_iff.mp hrun
  simp only [Prod.mk.injEq] at heq
  obtain ⟨hphase, hfinished, hwaiters, h0, h1⟩ := heq
  have hexited : ∀ w, s.threads_ w = .exited := Fin.forall_fin_two.mpr ⟨h0, h1⟩
  have hstuck : Stuck s := by
    intro a ha
    cases a with
    | pop w => simp [threadPool, hexited w]
    | finish w => simp [threadPool, hexited w]
    | resume i => simp [threadPool, Waiter.resume, hwaiters]
    | _ => cases ha
  obtain ⟨-, -, -, -, hend⟩ :=
    threadPool_runs_each_task_once (by decide) (Machine.reachable_of_run hs)
  obtain ⟨-, -, hnone, hearly, -⟩ := hend ⟨0, hphase⟩ hstuck
  exact ⟨s, hs, hphase, hfinished, hearly, hnone⟩

end LatticeFlow
