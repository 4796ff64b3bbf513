import Mathlib.Algebra.Order.Ring.Int
import Mathlib.Data.Finset.Card
import LatticeFlow.Lib.CondVar
import LatticeFlow.Lib.History
import LatticeFlow.Lib.Machine
import LatticeFlow.Lib.MachineInt

/-!
# The Barrier

`Barrier` of `concurrency/barrier.cc`: threads enter and wait until `threshold_` threads have
entered. The last one to enter wakes the others, and so does every one that enters later.

Threads are of an arbitrary type `Tid`, and any number of them may call `enter`. A step is a
critical section: a call from its beginning, or from its return from `wait`, to its return or
to its next `wait`. A thread makes one call at a time. The log of who has entered and whose
call has returned is not part of the code.

A thread may enter again after its call has returned, and is counted again then. Before the
threshold is reached all callers wait, so that up to there each thread is counted once, and
`count_` tells how many threads have entered (`EnterInv.each_once`).

`count_` is an `int` that counts every call, also those after the release, and the call with
number `2 ^ 31` makes it overflow. A call that finds it negative goes to sleep, although the
threshold has been met (`barrier_overflow_strands`). No call returns early for that reason.

## Main results

* `EnterInv`: what `count_`, the waiters and the log have to do with each other.
* `barrier_releases`: no call returns early, and up to `2 ^ 31 - 1` calls no waiter is left
  asleep.
* `barrier_overflow_strands`: one more call is.
-/

namespace LatticeFlow

/-! ### The barrier -/

/-- What happens at the barrier. -/
inductive BarrierEvent (Tid : Type)
  /-- A thread has called `enter` and is counted. -/
  | entered (t : Tid)
  /-- The call has returned. -/
  | returned (t : Tid)
  deriving DecidableEq, Repr

/-- A `Barrier` with the calls that wait on `all_done_`, and the log. -/
structure Barrier (Tid : Type) where
  count_ : ℤ := 0
  waiters : List (Waiter Tid Unit) := []
  log : List (BarrierEvent Tid) := []
  deriving DecidableEq, Repr

/-- What moves the barrier. -/
inductive BarrierAction (Tid : Type)
  /-- A thread calls `enter`. -/
  | enter (t : Tid)
  /-- A waiter that is awake gets the lock. -/
  | resume (i : ℕ)
  /-- A waiter wakes up without a notification. -/
  | wakeUp (i : ℕ)
  deriving DecidableEq, Repr

/-- `all_done_`: every waiter waits on it. -/
def allDone : Unit → Bool := fun _ => true

namespace Barrier

variable {Tid : Type} (threshold_ : ℤ)

/-- The loop of `enter`: the condition is tested, and the call waits or returns. -/
def waitLoop (b : Barrier Tid) (t : Tid) : Barrier Tid :=
  if b.count_ < threshold_ then { b with waiters := b.waiters ++ [⟨t, (), .asleep⟩] }
  else { b with log := b.log ++ [.returned t] }

/-- `enter`, up to its return or its first `wait`. -/
def enter (b : Barrier Tid) (t : Tid) : Barrier Tid :=
  let b : Barrier Tid := { b with count_ := increment b.count_, log := b.log ++ [.entered t] }
  if b.count_ ≥ threshold_ then
    { b with waiters := Waiter.notifyAll allDone b.waiters, log := b.log ++ [.returned t] }
  else b.waitLoop threshold_ t

end Barrier

/-- The barrier and the threads that enter it. -/
def barrier {Tid : Type} [DecidableEq Tid] (threshold_ : ℤ) :
    Machine (Barrier Tid) (BarrierAction Tid) where
  init := {}
  step b
    | .enter t =>
        if b.waiters.any fun w => w.thread = t then none else some (b.enter threshold_ t)
    | .resume i =>
        (Waiter.resume i b.waiters).map fun r =>
          { b with waiters := r.2 }.waitLoop threshold_ r.1.thread
    | .wakeUp i =>
        (Waiter.wakeUp i b.waiters).map fun waiters => { b with waiters := waiters }

/-! ### The invariant -/

section Invariant

variable {Tid : Type} {threshold_ : ℤ} {b : Barrier Tid} {t : Tid}

/-- The threads that have entered, one by one. -/
def enteredThreads (log : List (BarrierEvent Tid)) : List Tid :=
  log.filterMap fun
    | .entered t => some t
    | .returned _ => none

@[simp] theorem enteredThreads_entered (log : List (BarrierEvent Tid)) (t : Tid) :
    enteredThreads (log ++ [.entered t]) = enteredThreads log ++ [t] := by
  simp [enteredThreads]

@[simp] theorem enteredThreads_returned (log : List (BarrierEvent Tid)) (t : Tid) :
    enteredThreads (log ++ [.returned t]) = enteredThreads log := by
  simp [enteredThreads]

variable [DecidableEq Tid]

/-- How many threads have entered. -/
def numEntered (log : List (BarrierEvent Tid)) : ℕ :=
  (enteredThreads log).toFinset.card

/-- One more call does not make fewer threads. -/
theorem numEntered_le_append (log : List (BarrierEvent Tid)) (t : Tid) :
    numEntered log ≤ numEntered (log ++ [.entered t]) := by
  refine Finset.card_le_card fun x hx => ?_
  rw [enteredThreads_entered, List.mem_toFinset]
  exact List.mem_append_left _ (List.mem_toFinset.mp hx)

@[simp] theorem numEntered_returned (log : List (BarrierEvent Tid)) (t : Tid) :
    numEntered (log ++ [.returned t]) = numEntered log := by
  rw [numEntered, enteredThreads_returned, numEntered]

/-- A call returns only when so many threads have entered. -/
def ReturnsAfter (threshold_ : ℤ) (past : List (BarrierEvent Tid)) : BarrierEvent Tid → Prop
  | .entered _ => True
  | .returned _ => threshold_ ≤ numEntered past

/-- **The invariant.** Below the threshold each thread that has entered waits; from the
threshold on nobody sleeps, as long as `count_` has not overflown. -/
structure EnterInv (threshold_ : ℤ) (b : Barrier Tid) : Prop where
  counted : b.count_ = countedTo (enteredThreads b.log).length
  each_once : (enteredThreads b.log).length < threshold_ →
    (enteredThreads b.log).Nodup ∧ ∀ t ∈ enteredThreads b.log, t ∈ b.waiters.map Waiter.thread
  enough : threshold_ ≤ (enteredThreads b.log).length → threshold_ ≤ numEntered b.log
  awake : threshold_ ≤ (enteredThreads b.log).length →
    (enteredThreads b.log).length < 2 ^ 31 → ∀ w ∈ b.waiters, w.wake ≠ .asleep
  returns : EachAfter (ReturnsAfter threshold_) b.log

/-- At the beginning nobody has entered. -/
theorem EnterInv.init : EnterInv threshold_ ({} : Barrier Tid) where
  counted := countedTo_zero.symm
  each_once _ := ⟨List.nodup_nil, fun _ ht => absurd ht List.not_mem_nil⟩
  enough h := h
  awake _ _ _ hw := absurd hw List.not_mem_nil
  returns := EachAfter.nil

/-- `count_` has not overflown when it has reached the threshold, or the threshold had been
reached before. -/
theorem EnterInv.le_length (h : EnterInv threshold_ b) (hle : threshold_ ≤ b.count_) :
    threshold_ ≤ (enteredThreads b.log).length := by
  rw [h.counted] at hle
  exact hle.trans (countedTo_le _)

/-- The log and `count_` after a thread has been counted, before it waits or returns. -/
theorem EnterInv.count (h : EnterInv threshold_ b) (ht : t ∉ b.waiters.map Waiter.thread) :
    increment b.count_ = countedTo (enteredThreads (b.log ++ [.entered t])).length ∧
      ((enteredThreads b.log).length < threshold_ →
        (enteredThreads (b.log ++ [.entered t])).Nodup) ∧
      (threshold_ ≤ (enteredThreads (b.log ++ [.entered t])).length →
        threshold_ ≤ numEntered (b.log ++ [.entered t])) := by
  have hnodup : (enteredThreads b.log).length < threshold_ →
      (enteredThreads (b.log ++ [.entered t])).Nodup := by
    intro hlt
    obtain ⟨hnodup, hwait⟩ := h.each_once hlt
    rw [enteredThreads_entered, ← List.concat_eq_append]
    exact hnodup.concat fun hmem => ht (hwait t hmem)
  refine ⟨?_, hnodup, fun hle => ?_⟩
  · rw [h.counted, increment_countedTo, enteredThreads_entered, List.length_append,
      List.length_singleton]
  · rcases lt_or_ge ((enteredThreads b.log).length : ℤ) threshold_ with hlt | hge
    · -- This is the thread that reaches the threshold.
      rw [numEntered, List.toFinset_card_of_nodup (hnodup hlt)]
      exact hle
    · exact (h.enough hge).trans (Int.ofNat_le.mpr (numEntered_le_append b.log t))

/-- A call returns, from the threshold on. -/
theorem EnterInv.return (h : EnterInv threshold_ b) (hle : threshold_ ≤ b.count_) (t : Tid) :
    EnterInv threshold_ { b with log := b.log ++ [.returned t] } where
  counted := by
    rw [enteredThreads_returned]
    exact h.counted
  each_once hlt := by
    rw [enteredThreads_returned] at hlt
    exact absurd hlt (not_lt.mpr (h.le_length hle))
  enough _ := by
    rw [numEntered_returned]
    exact h.enough (h.le_length hle)
  awake := by
    rw [enteredThreads_returned]
    exact h.awake
  returns := h.returns.append (h.enough (h.le_length hle))

/-- The thread that reaches the threshold, and every later one, wakes all waiters. -/
theorem EnterInv.release (h : EnterInv threshold_ b) (ht : t ∉ b.waiters.map Waiter.thread)
    (hle : threshold_ ≤ increment b.count_) :
    EnterInv threshold_ { count_ := increment b.count_,
                          waiters := Waiter.notifyAll allDone b.waiters,
                          log := b.log ++ [.entered t] } where
  counted := (h.count ht).1
  each_once hlt := by
    rw [(h.count ht).1] at hle
    exact absurd hlt (not_lt.mpr (hle.trans (countedTo_le _)))
  enough := (h.count ht).2.2
  awake _ _ w hw := by
    obtain ⟨w, -, rfl⟩ := List.mem_map.mp hw
    split_ifs with hsleep
    · simp
    · intro hasleep
      exact hsleep (by simp [Waiter.sleepsOn, allDone, hasleep])
  returns := h.returns.append trivial

/-- A thread enters. -/
theorem EnterInv.enter (h : EnterInv threshold_ b) (ht : t ∉ b.waiters.map Waiter.thread) :
    EnterInv threshold_ (b.enter threshold_ t) := by
  simp only [Barrier.enter]
  split_ifs with hge
  · exact (h.release ht hge).return hge t
  · -- The thread goes to sleep, below the threshold or after an overflow.
    obtain ⟨hcount, hnodup, henough⟩ := h.count ht
    have hlt : increment b.count_ < threshold_ := not_le.mp hge
    simp only [Barrier.waitLoop, hlt, if_true]
    refine ⟨hcount, fun hbelow => ?_, henough, fun hle hfew => ?_, h.returns.append trivial⟩
    · have hbelow' : ((enteredThreads b.log).length : ℤ) < threshold_ := by
        simp only [enteredThreads_entered, List.length_append, List.length_singleton] at hbelow
        omega
      refine ⟨hnodup hbelow', fun t' ht' => ?_⟩
      rw [enteredThreads_entered] at ht'
      rw [List.map_append]
      rcases List.mem_append.mp ht' with ht' | ht'
      · exact List.mem_append_left _ ((h.each_once hbelow').2 t' ht')
      · exact List.mem_append_right _ ht'
    · rw [hcount, countedTo_of_lt hfew] at hlt
      exact absurd hle (not_le.mpr hlt)

/-- A waiter gets the lock. -/
theorem EnterInv.resume {i : ℕ} {w : Waiter Tid Unit} {waiters : List (Waiter Tid Unit)}
    (h : EnterInv threshold_ b) (hresume : Waiter.resume i b.waiters = some (w, waiters)) :
    EnterInv threshold_ ({ b with waiters := waiters }.waitLoop threshold_ w.thread) := by
  obtain ⟨-, l₁, l₂, hsplit, rfl⟩ := Waiter.resume_cases hresume
  simp only [Barrier.waitLoop]
  split_ifs with hlt
  · -- It sleeps again.
    refine ⟨h.counted, fun hbelow => ⟨(h.each_once hbelow).1, fun t ht => ?_⟩, h.enough,
      fun hle hfew => ?_, h.returns⟩
    · have hmem := (h.each_once hbelow).2 t ht
      rw [hsplit] at hmem
      simp only [List.map_append, List.map_cons, List.mem_append, List.mem_cons] at hmem ⊢
      tauto
    · rw [h.counted, countedTo_of_lt hfew] at hlt
      exact absurd hle (not_le.mpr hlt)
  · have hle : threshold_ ≤ b.count_ := not_lt.mp hlt
    have hothers : EnterInv threshold_ { b with waiters := l₁ ++ l₂ } := by
      refine ⟨h.counted, fun hbelow => absurd hbelow (not_lt.mpr (h.le_length hle)), h.enough,
        fun hle' hfew w' hw' => ?_, h.returns⟩
      refine h.awake hle' hfew w' ?_
      rw [hsplit]
      rcases List.mem_append.mp hw' with hw' | hw'
      · exact List.mem_append_left _ hw'
      · exact List.mem_append_right _ (List.mem_cons_of_mem _ hw')
    exact hothers.return hle w.thread

/-- A waiter wakes up without a notification. -/
theorem EnterInv.wakeUp {i : ℕ} {waiters : List (Waiter Tid Unit)} (h : EnterInv threshold_ b)
    (hwake : Waiter.wakeUp i b.waiters = some waiters) :
    EnterInv threshold_ { b with waiters := waiters } := by
  refine ⟨h.counted, fun hlt => ?_, h.enough, fun hle hfew w hw => ?_, h.returns⟩
  · rw [Waiter.threads_wakeUp hwake]
    exact h.each_once hlt
  · obtain ⟨l₁, l₂, t, c, hsplit, rfl⟩ := Waiter.wakeUp_cases hwake
    -- Nobody sleeps, so nobody can wake up.
    exact absurd rfl (h.awake hle hfew ⟨t, c, .asleep⟩ (by rw [hsplit]; simp))

/-- **The invariant** holds in every state of every run. -/
theorem enterInv_of_reachable (hr : (barrier threshold_).Reachable b) :
    EnterInv threshold_ b := by
  refine hr.invariant EnterInv.init ?_
  intro b a b' _ hinv hs
  cases a with
  | enter t =>
      simp only [barrier] at hs
      split_ifs at hs with hany
      obtain rfl := Option.some.inj hs
      refine hinv.enter fun hmem => hany ?_
      obtain ⟨w, hw, rfl⟩ := List.mem_map.mp hmem
      exact List.any_eq_true.mpr ⟨w, hw, decide_eq_true rfl⟩
  | resume i =>
      obtain ⟨⟨w, waiters⟩, hresume, rfl⟩ := Option.map_eq_some_iff.mp hs
      exact hinv.resume hresume
  | wakeUp i =>
      obtain ⟨waiters, hwake, rfl⟩ := Option.map_eq_some_iff.mp hs
      exact hinv.wakeUp hwake

/-! ### What the barrier is for -/

/-- **A barrier releases nobody early and strands nobody.** For any threshold and any
interleaving of any number of threads, in every state of every run: whenever a call of
`enter` returned, at least `threshold_` threads had entered; and if at least `threshold_`
threads have entered, in less than `2 ^ 31` calls, no waiter is asleep. -/
theorem barrier_releases (hr : (barrier threshold_).Reachable b) :
    (∀ past t rest, b.log = past ++ .returned t :: rest → threshold_ ≤ numEntered past) ∧
      ((enteredThreads b.log).length < 2 ^ 31 → threshold_ ≤ numEntered b.log →
        ∀ w ∈ b.waiters, w.wake ≠ .asleep) := by
  have hinv := enterInv_of_reachable hr
  refine ⟨fun past t rest heq => hinv.returns past _ rest heq, fun hfew hle => hinv.awake ?_ hfew⟩
  exact hle.trans (Int.ofNat_le.mpr (List.toFinset_card_le _))

end Invariant

/-- Three threads at a barrier for two: the first one sleeps and wakes up too early, the
second one releases it, and the third one enters after the release. -/
def threeThreads : List (BarrierAction ℕ) :=
  [.enter 0, .wakeUp 0, .resume 0, .enter 1, .enter 2]

/-- After the run `threeThreads` the first thread has been notified and has not run. -/
theorem barrier_releases_three_threads : ∃ b,
    (barrier 2).run (barrier 2).init threeThreads = some b ∧
      b.waiters = [⟨0, (), .notified⟩] ∧
      (∀ past t rest, b.log = past ++ .returned t :: rest → (2 : ℤ) ≤ numEntered past) ∧
      ∀ w ∈ b.waiters, w.wake ≠ .asleep := by
  have hrun : (barrier 2).run (barrier 2).init threeThreads =
      some ⟨3, [⟨0, (), .notified⟩],
        [.entered 0, .entered 1, .returned 1, .entered 2, .returned 2]⟩ := by
    decide
  obtain ⟨hreturns, hawake⟩ := barrier_releases (Machine.reachable_of_run hrun)
  exact ⟨_, hrun, rfl, hreturns, hawake (by decide) (by decide)⟩

/-! ### After the overflow -/

/-- One thread at a barrier for one: each of its first `2 ^ 31 - 1` calls returns at once. -/
theorem barrier_of_one_returns {n : ℕ} (hn : n < 2 ^ 31) : ∃ b : Barrier Unit,
    (barrier 1).Reachable b ∧ b.count_ = n ∧ b.waiters = [] ∧
      (enteredThreads b.log).length = n := by
  induction n with
  | zero => exact ⟨{}, .init, rfl, rfl, rfl⟩
  | succ n ih =>
      obtain ⟨b, hr, hcount, hwaiters, hlength⟩ := ih (by omega)
      have hnext : increment b.count_ = (n + 1 : ℕ) := by
        rw [hcount, ← countedTo_of_lt (show n < 2 ^ 31 by omega), increment_countedTo,
          countedTo_of_lt hn]
      have hstep : (barrier 1).step b (.enter ()) = some (b.enter 1 ()) := by
        simp [barrier, hwaiters]
      have henter : b.enter 1 () = ⟨(n + 1 : ℕ), [], b.log ++ [.entered (), .returned ()]⟩ := by
        simp [Barrier.enter, hnext, hwaiters, Waiter.notifyAll]
      refine ⟨b.enter 1 (), hr.step hstep, ?_, ?_, ?_⟩
      · rw [henter]
      · rw [henter]
      · rw [henter]
        simp [enteredThreads, ← hlength]

/-- **The overflow strands a thread**: its call with number `2 ^ 31` goes to sleep at a barrier
for one, which has let it pass before. -/
theorem barrier_overflow_strands : ∃ b : Barrier Unit,
    (barrier 1).Reachable b ∧ 1 ≤ numEntered b.log ∧ ⟨(), (), .asleep⟩ ∈ b.waiters := by
  obtain ⟨b, hr, hcount, hwaiters, hlength⟩ :=
    barrier_of_one_returns (show 2 ^ 31 - 1 < 2 ^ 31 by omega)
  have hnext : increment b.count_ = -2 ^ 31 := by
    rw [hcount]
    exact increment_max
  have hstep : (barrier 1).step b (.enter ()) = some (b.enter 1 ()) := by
    simp [barrier, hwaiters]
  have henter : b.enter 1 () = ⟨-2 ^ 31, [⟨(), (), .asleep⟩], b.log ++ [.entered ()]⟩ := by
    simp [Barrier.enter, Barrier.waitLoop, hnext, hwaiters]
  refine ⟨b.enter 1 (), hr.step hstep, ?_, ?_⟩
  · rw [henter, numEntered, enteredThreads_entered]
    exact Finset.card_pos.mpr ⟨(), by simp⟩
  · rw [henter]
    exact List.mem_singleton_self _

end LatticeFlow
