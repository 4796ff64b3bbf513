import Mathlib.Data.List.Infix
import LatticeFlow.Lib.Machine
import LatticeFlow.Operator

/-!
# Exchange

`Exchange` of `flow/exchange.h` runs its child operator in a thread of its own. The child
thread (`ChildPopulateBuffer`) pushes the child's tuples into `buffer_`, tagged with the
number of resets it has performed, and at the end of the stream an end marker. The
consumer pops the buffer until it finds an entry tagged with the number of resets it has
asked for. A reset is a signal to the child thread, which looks for one after every tuple
(`try_pop`) and waits for one at the end of the stream (`pop`).

The two threads take their steps in any interleaving; every operation of a queue is one
step. The source lacks a `break` after the case of a reset found in mid-stream, so that
the child thread clears the buffer, resets the child and then returns.

Entries of the buffer carry the number of resets at the time they were pushed, and the
state keeps the results of the completed calls of `next`. Both are ghosts.

In the source `num_resets_`, `num_resets` and the tags are `int`s; here they are natural
numbers. They are only counted up and compared for equality, so that a wrap-around could show
only with `2 ^ 32` resets under way at once.

## Main results

* `exchangeInv_of_reachable`: the two counters differ by the resets under way, and tags
  stay below them.
* `exchange_never_stuck`: runs in which no reset is read in mid-stream do not get stuck;
  a reset read in mid-stream can always be continued to a stuck state.
* `exchange_returns_stream`: whatever the interleaving, the results between two resets are
  a beginning of the child's stream with its end marker.
-/

namespace LatticeFlow

/-- `Signal`. -/
inductive Signal
  | reset
  | die
  deriving DecidableEq, Repr

/-- Where the consumer is. -/
inductive ConsumerPc
  /-- Outside of the operator. -/
  | idle
  /-- In `next()`, before a `buffer_.pop()`. -/
  | inNext
  /-- In `reset()`, before `signals_.push`. -/
  | resetting
  /-- In the destructor, before the join of the child thread. -/
  | destroying
  deriving DecidableEq, Repr

/-- Where the child thread is in `ChildPopulateBuffer`. -/
inductive ChildPc (α : Type)
  /-- Before `child_->next()`. -/
  | callNext
  /-- Before the push of a tuple. -/
  | pushTuple (t : α)
  /-- Before `signals_.try_pop()`. -/
  | tryPop
  /-- A reset was found in mid-stream: before `buffer_.clear()`. -/
  | clear
  /-- After it: before the reset of the child, `num_resets++`, and the return. -/
  | resetAndReturn
  /-- Before the push of the end marker. -/
  | pushEnd
  /-- Before or in `signals_.pop()`. -/
  | pop
  /-- The thread has returned. -/
  | exited
  deriving DecidableEq, Repr

/-- An entry of `buffer_`, with the value that `num_resets_` had at its push. The tag is an `int`
in the source, as the two counters are. -/
structure Entry (α : Type) where
  tag : ℕ
  value : Option α
  pushedAt : ℕ
  deriving DecidableEq, Repr

/-- A completed call of `next()`: the number of resets, the result, and the value that
`num_resets_` had when the result was pushed. -/
structure Returned (α : Type) where
  epoch : ℕ
  value : Option α
  pushedAt : ℕ
  deriving DecidableEq, Repr

/-- `Exchange`, with its two threads. -/
structure Exchange {α : Type} (child : Operator α) where
  num_resets_ : ℕ := 0
  buffer_ : List (Entry α) := []
  signals_ : List Signal := []
  consumer : ConsumerPc := .idle
  /-- The state of `child_`. -/
  childState : child.State := child.init
  /-- The local counter of `ChildPopulateBuffer`. -/
  num_resets : ℕ := 0
  childPc : ChildPc α := .callNext
  results : List (Returned α) := []

/-- A step: the consumer calls `next`, pops the buffer in it, calls `reset`, sends the
signal in it, or runs the destructor; or the child thread takes its next step. -/
inductive ExchangeAction
  | callNext
  | pop
  | callReset
  | signal
  | destroy
  | child
  deriving DecidableEq, Repr

namespace Exchange

variable {α : Type} {child : Operator α}

/-- One turn of the loop of `next()`. -/
def pop (s : Exchange child) : Option (Exchange child) :=
  match s.consumer, s.buffer_ with
  | .inNext, e :: buffer_ =>
      if e.tag ≠ s.num_resets_ then some { s with buffer_ := buffer_ }
      else some { s with
        buffer_ := buffer_
        consumer := .idle
        results := s.results ++ [⟨s.num_resets_, e.value, e.pushedAt⟩] }
  | _, _ => none

/-- The next step of the child thread. -/
def childStep (s : Exchange child) : Option (Exchange child) :=
  match s.childPc with
  | .callNext =>
      match child.next s.childState with
      | (some t, childState) => some { s with childState := childState, childPc := .pushTuple t }
      | (none, childState) => some { s with childState := childState, childPc := .pushEnd }
  | .pushTuple t =>
      some { s with
        buffer_ := s.buffer_ ++ [⟨s.num_resets, some t, s.num_resets_⟩]
        childPc := .tryPop }
  | .tryPop =>
      match s.signals_ with
      | [] => some { s with childPc := .callNext }
      | .reset :: signals_ => some { s with signals_ := signals_, childPc := .clear }
      | .die :: signals_ => some { s with signals_ := signals_, childPc := .exited }
  | .clear => some { s with buffer_ := [], childPc := .resetAndReturn }
  | .resetAndReturn =>
      -- There is no `break`: the case of `DIE` follows.
      some { s with
        childState := child.reset s.childState
        num_resets := s.num_resets + 1
        childPc := .exited }
  | .pushEnd =>
      some { s with
        buffer_ := s.buffer_ ++ [⟨s.num_resets, none, s.num_resets_⟩]
        childPc := .pop }
  | .pop =>
      match s.signals_ with
      | [] => none
      | .reset :: signals_ =>
          some { s with
            signals_ := signals_
            childState := child.reset s.childState
            num_resets := s.num_resets + 1
            childPc := .callNext }
      | .die :: signals_ => some { s with signals_ := signals_, childPc := .exited }
  | .exited => none

end Exchange

/-- The machine of the two threads. -/
def exchange {α : Type} (child : Operator α) : Machine (Exchange child) ExchangeAction where
  init := {}
  step s
    | .callNext => if s.consumer = .idle then some { s with consumer := .inNext } else none
    | .pop => s.pop
    | .callReset =>
        if s.consumer = .idle then
          some { s with num_resets_ := s.num_resets_ + 1, consumer := .resetting }
        else none
    | .signal =>
        if s.consumer = .resetting then
          some { s with signals_ := s.signals_ ++ [.reset], consumer := .idle }
        else none
    | .destroy =>
        if s.consumer = .idle then
          some { s with signals_ := s.signals_ ++ [.die], consumer := .destroying }
        else none
    | .child => s.childStep

/-! ### What a step does -/

variable {α : Type} {child : Operator α}

/-- **All steps of the two threads**, with what they change. -/
inductive ExchangeMove (s : Exchange child) : ExchangeAction → Exchange child → Prop
  | callNext : s.consumer = .idle → ExchangeMove s .callNext { s with consumer := .inNext }
  | skip (e : Entry α) (b : List (Entry α)) : s.consumer = .inNext → s.buffer_ = e :: b →
      e.tag ≠ s.num_resets_ → ExchangeMove s .pop { s with buffer_ := b }
  | take (e : Entry α) (b : List (Entry α)) : s.consumer = .inNext → s.buffer_ = e :: b →
      e.tag = s.num_resets_ → ExchangeMove s .pop { s with
        buffer_ := b
        consumer := .idle
        results := s.results ++ [⟨s.num_resets_, e.value, e.pushedAt⟩] }
  | callReset : s.consumer = .idle →
      ExchangeMove s .callReset { s with num_resets_ := s.num_resets_ + 1, consumer := .resetting }
  | signal : s.consumer = .resetting →
      ExchangeMove s .signal { s with signals_ := s.signals_ ++ [.reset], consumer := .idle }
  | destroy : s.consumer = .idle →
      ExchangeMove s .destroy { s with signals_ := s.signals_ ++ [.die], consumer := .destroying }
  | childSome (t : α) (σ : child.State) : s.childPc = .callNext →
      child.next s.childState = (some t, σ) →
      ExchangeMove s .child { s with childState := σ, childPc := .pushTuple t }
  | childNone (σ : child.State) : s.childPc = .callNext → child.next s.childState = (none, σ) →
      ExchangeMove s .child { s with childState := σ, childPc := .pushEnd }
  | pushTuple (t : α) : s.childPc = .pushTuple t → ExchangeMove s .child { s with
        buffer_ := s.buffer_ ++ [⟨s.num_resets, some t, s.num_resets_⟩]
        childPc := .tryPop }
  | noSignal : s.childPc = .tryPop → s.signals_ = [] →
      ExchangeMove s .child { s with childPc := .callNext }
  | midReset (ss : List Signal) : s.childPc = .tryPop → s.signals_ = .reset :: ss →
      ExchangeMove s .child { s with signals_ := ss, childPc := .clear }
  | clear : s.childPc = .clear →
      ExchangeMove s .child { s with buffer_ := [], childPc := .resetAndReturn }
  | resetAndReturn : s.childPc = .resetAndReturn → ExchangeMove s .child { s with
        childState := child.reset s.childState
        num_resets := s.num_resets + 1
        childPc := .exited }
  | pushEnd : s.childPc = .pushEnd → ExchangeMove s .child { s with
        buffer_ := s.buffer_ ++ [⟨s.num_resets, none, s.num_resets_⟩]
        childPc := .pop }
  | endReset (ss : List Signal) : s.childPc = .pop → s.signals_ = .reset :: ss →
      ExchangeMove s .child { s with
        signals_ := ss
        childState := child.reset s.childState
        num_resets := s.num_resets + 1
        childPc := .callNext }
  | die (ss : List Signal) : s.childPc = .tryPop ∨ s.childPc = .pop → s.signals_ = .die :: ss →
      ExchangeMove s .child { s with signals_ := ss, childPc := .exited }

/-- What a `pop` of the consumer does. -/
theorem Exchange.pop_move {s s' : Exchange child} (h : s.pop = some s') :
    ExchangeMove s .pop s' := by
  simp only [Exchange.pop] at h
  split at h
  · rename_i e b hc hb
    split_ifs at h with htag
    · cases h
      exact .skip e b hc hb htag
    · cases h
      exact .take e b hc hb (not_not.mp htag)
  · cases h

/-- What a step of the child thread does. -/
theorem Exchange.childStep_move {s s' : Exchange child} (h : s.childStep = some s') :
    ExchangeMove s .child s' := by
  simp only [Exchange.childStep] at h
  cases hpc : s.childPc with
  | callNext =>
      simp only [hpc] at h
      split at h
      · rename_i t σ hnext
        cases h
        exact .childSome t σ hpc hnext
      · rename_i σ hnext
        cases h
        exact .childNone σ hpc hnext
  | pushTuple t =>
      simp only [hpc, Option.some.injEq] at h
      exact h ▸ .pushTuple t hpc
  | tryPop =>
      simp only [hpc] at h
      split at h
      · rename_i hs
        cases h
        exact .noSignal hpc hs
      · rename_i ss hs
        cases h
        exact .midReset ss hpc hs
      · rename_i ss hs
        cases h
        exact .die ss (Or.inl hpc) hs
  | clear =>
      simp only [hpc, Option.some.injEq] at h
      exact h ▸ .clear hpc
  | resetAndReturn =>
      simp only [hpc, Option.some.injEq] at h
      exact h ▸ .resetAndReturn hpc
  | pushEnd =>
      simp only [hpc, Option.some.injEq] at h
      exact h ▸ .pushEnd hpc
  | pop =>
      simp only [hpc] at h
      split at h
      · cases h
      · rename_i ss hs
        cases h
        exact .endReset ss hpc hs
      · rename_i ss hs
        cases h
        exact .die ss (Or.inr hpc) hs
  | exited =>
      simp only [hpc] at h
      cases h

/-- **What a step does**, for all of them. -/
theorem exchange_step_move {s s' : Exchange child} {a : ExchangeAction}
    (h : (exchange child).step s a = some s') : ExchangeMove s a s' := by
  cases a with
  | callNext =>
      simp only [exchange, Option.ite_none_right_eq_some, Option.some.injEq] at h
      exact h.2 ▸ .callNext h.1
  | pop => exact Exchange.pop_move h
  | callReset =>
      simp only [exchange, Option.ite_none_right_eq_some, Option.some.injEq] at h
      exact h.2 ▸ .callReset h.1
  | signal =>
      simp only [exchange, Option.ite_none_right_eq_some, Option.some.injEq] at h
      exact h.2 ▸ .signal h.1
  | destroy =>
      simp only [exchange, Option.ite_none_right_eq_some, Option.some.injEq] at h
      exact h.2 ▸ .destroy h.1
  | child => exact Exchange.childStep_move h

/-! ### Counters and tags -/

/-- The resets that the consumer has counted and not signalled. -/
def ConsumerPc.owes : ConsumerPc → ℕ
  | .resetting => 1
  | _ => 0

/-- The resets that the child thread has read and not counted. -/
def ChildPc.owes : ChildPc α → ℕ
  | .clear | .resetAndReturn => 1
  | _ => 0

/-- What holds in every run.

* `counters`: the two counters differ by the resets under way.
* `entry`: nothing is tagged with a reset that the child thread has not counted, or that
  the consumer had not asked for when it was pushed.
* `result`: results were pushed under the number of resets under which they are returned.
* `marker`: a child thread that waits for a signal has delivered the end marker of its
  number of resets; if that is still the consumer's, the marker is in the buffer or has been
  returned.
* `die`: only the destructor sends `DIE`. -/
structure ExchangeInv (s : Exchange child) : Prop where
  counters : s.num_resets + s.signals_.count .reset + s.consumer.owes + s.childPc.owes =
    s.num_resets_
  entry : ∀ e ∈ s.buffer_, e.tag ≤ s.num_resets ∧ e.tag ≤ e.pushedAt ∧
    e.pushedAt ≤ s.num_resets_
  result : ∀ r ∈ s.results, r.epoch ≤ s.num_resets ∧ r.pushedAt = r.epoch
  marker : s.childPc = .pop → s.num_resets = s.num_resets_ →
    (∃ r ∈ s.results, r.epoch = s.num_resets_ ∧ r.value = none) ∨
      ∃ e ∈ s.buffer_, e.tag = s.num_resets_ ∧ e.value = none
  die : .die ∈ s.signals_ → s.consumer = .destroying

namespace ExchangeInv

variable {s s' : Exchange child}

/-- The child thread never counts ahead of the consumer. -/
theorem num_resets_le (hs : ExchangeInv s) : s.num_resets ≤ s.num_resets_ := by
  have := hs.counters
  omega

/-- A pop of the buffer leaves the other entries as they are. -/
theorem entry_tail (hs : ExchangeInv s) {e : Entry α} {b : List (Entry α)}
    (hb : s.buffer_ = e :: b) {e' : Entry α} (he' : e' ∈ b) :
    e'.tag ≤ s.num_resets ∧ e'.tag ≤ e'.pushedAt ∧ e'.pushedAt ≤ s.num_resets_ :=
  hs.entry e' (hb ▸ List.mem_cons_of_mem e he')

/-- A push of the child thread. -/
theorem entry_push (hs : ExchangeInv s) (v : Option α) :
    ∀ e ∈ s.buffer_ ++ [⟨s.num_resets, v, s.num_resets_⟩],
      e.tag ≤ s.num_resets ∧ e.tag ≤ e.pushedAt ∧ e.pushedAt ≤ s.num_resets_ := by
  intro e he
  rcases List.mem_append.mp he with he | he
  · exact hs.entry e he
  · obtain rfl := List.mem_singleton.mp he
    exact ⟨le_rfl, hs.num_resets_le, le_rfl⟩

/-- What the child thread has counted stays below what it counts next. -/
theorem entry_succ (hs : ExchangeInv s) :
    ∀ e ∈ s.buffer_, e.tag ≤ s.num_resets + 1 ∧ e.tag ≤ e.pushedAt ∧
      e.pushedAt ≤ s.num_resets_ :=
  fun e he => ⟨(hs.entry e he).1.trans (Nat.le_succ _), (hs.entry e he).2⟩

/-- So do the epochs of the results. -/
theorem result_succ (hs : ExchangeInv s) :
    ∀ r ∈ s.results, r.epoch ≤ s.num_resets + 1 ∧ r.pushedAt = r.epoch :=
  fun r hr => ⟨(hs.result r hr).1.trans (Nat.le_succ _), (hs.result r hr).2⟩

/-- The returned entry was pushed under the number of resets under which it is returned. -/
theorem result_take (hs : ExchangeInv s) {e : Entry α} {b : List (Entry α)}
    (hb : s.buffer_ = e :: b) (htag : e.tag = s.num_resets_) :
    ∀ r ∈ s.results ++ [⟨s.num_resets_, e.value, e.pushedAt⟩],
      r.epoch ≤ s.num_resets ∧ r.pushedAt = r.epoch := by
  intro r hr
  rcases List.mem_append.mp hr with hr | hr
  · exact hs.result r hr
  · obtain rfl := List.mem_singleton.mp hr
    obtain ⟨hle, hlo, hhi⟩ := hs.entry e (hb ▸ List.mem_cons_self)
    exact ⟨htag ▸ hle, by simp only; omega⟩

/-- Every step keeps the invariant. -/
theorem step {a : ExchangeAction} (hs : ExchangeInv s) (h : ExchangeMove s a s') :
    ExchangeInv s' := by
  have hcount := hs.counters
  cases h with
  | callNext hc =>
      rw [hc] at hcount
      exact ⟨hcount, hs.entry, hs.result, hs.marker, fun hd => absurd (hs.die hd) (by simp [hc])⟩
  | skip e b hc hb htag =>
      refine ⟨hcount, fun e' he' => hs.entry_tail hb he', hs.result, fun hpc heq => ?_, hs.die⟩
      rcases hs.marker hpc heq with hr | ⟨e', he', hm⟩
      · exact Or.inl hr
      · rw [hb] at he'
        rcases List.mem_cons.mp he' with rfl | he'
        · exact absurd hm.1 htag
        · exact Or.inr ⟨e', he', hm⟩
  | take e b hc hb htag =>
      rw [hc] at hcount
      refine ⟨hcount, fun e' he' => hs.entry_tail hb he', hs.result_take hb htag,
        fun hpc heq => ?_, fun hd => absurd (hs.die hd) (by simp [hc])⟩
      rcases hs.marker hpc heq with ⟨r, hr, hm⟩ | ⟨e', he', hm⟩
      · exact Or.inl ⟨r, List.mem_append_left _ hr, hm⟩
      · rw [hb] at he'
        rcases List.mem_cons.mp he' with rfl | he'
        · exact Or.inl ⟨_, List.mem_append_right _ (List.mem_singleton.mpr rfl), rfl, hm.2⟩
        · exact Or.inr ⟨e', he', hm⟩
  | callReset hc =>
      have hle := hs.num_resets_le
      rw [hc] at hcount
      refine ⟨?_, fun e he => ?_, hs.result, fun _ heq => ?_,
        fun hd => absurd (hs.die hd) (by simp [hc])⟩
      · simp only [ConsumerPc.owes] at hcount ⊢
        omega
      · obtain ⟨h₁, h₂, h₃⟩ := hs.entry e he
        exact ⟨h₁, h₂, h₃.trans (Nat.le_succ _)⟩
      · simp only at heq
        omega
  | signal hc =>
      rw [hc] at hcount
      refine ⟨?_, hs.entry, hs.result, hs.marker, fun hd => ?_⟩
      · simp only [ConsumerPc.owes, List.count_append, List.count_singleton_self] at hcount ⊢
        omega
      · rcases List.mem_append.mp hd with hd | hd
        · exact absurd (hs.die hd) (by simp [hc])
        · simp at hd
  | destroy hc =>
      rw [hc] at hcount
      refine ⟨?_, hs.entry, hs.result, hs.marker, fun _ => rfl⟩
      simpa [ConsumerPc.owes, List.count_append] using hcount
  | childSome t σ hpc hnext =>
      rw [hpc] at hcount
      exact ⟨hcount, hs.entry, hs.result, fun hpc' => by simp at hpc', hs.die⟩
  | childNone σ hpc hnext =>
      rw [hpc] at hcount
      exact ⟨hcount, hs.entry, hs.result, fun hpc' => by simp at hpc', hs.die⟩
  | pushTuple t hpc =>
      rw [hpc] at hcount
      exact ⟨hcount, hs.entry_push _, hs.result, fun hpc' => by simp at hpc', hs.die⟩
  | noSignal hpc hsig =>
      rw [hpc] at hcount
      exact ⟨hcount, hs.entry, hs.result, fun hpc' => by simp at hpc', hs.die⟩
  | midReset ss hpc hsig =>
      rw [hpc, hsig, List.count_cons_self] at hcount
      refine ⟨?_, hs.entry, hs.result, fun hpc' => by simp at hpc',
        fun hd => hs.die (hsig ▸ List.mem_cons_of_mem _ hd)⟩
      simp only [ChildPc.owes] at hcount ⊢
      omega
  | clear hpc =>
      rw [hpc] at hcount
      exact ⟨hcount, fun e he => by simp at he, hs.result, fun hpc' => by simp at hpc', hs.die⟩
  | resetAndReturn hpc =>
      rw [hpc] at hcount
      refine ⟨?_, hs.entry_succ, hs.result_succ, fun hpc' => by simp at hpc', hs.die⟩
      simp only [ChildPc.owes] at hcount ⊢
      omega
  | pushEnd hpc =>
      rw [hpc] at hcount
      refine ⟨hcount, hs.entry_push _, hs.result, fun _ heq => Or.inr ?_, hs.die⟩
      exact ⟨_, List.mem_append_right _ (List.mem_singleton.mpr rfl), heq, rfl⟩
  | endReset ss hpc hsig =>
      rw [hpc, hsig, List.count_cons_self] at hcount
      refine ⟨?_, hs.entry_succ, hs.result_succ, fun hpc' => by simp at hpc',
        fun hd => hs.die (hsig ▸ List.mem_cons_of_mem _ hd)⟩
      simp only [ChildPc.owes] at hcount ⊢
      omega
  | die ss hpc hsig =>
      have howes : s.childPc.owes = 0 := by rcases hpc with hpc | hpc <;> rw [hpc] <;> rfl
      rw [hsig, howes] at hcount
      refine ⟨?_, hs.entry, hs.result, fun hpc' => by simp at hpc',
        fun hd => hs.die (hsig ▸ List.mem_cons_of_mem _ hd)⟩
      simpa [ChildPc.owes] using hcount

end ExchangeInv

/-- **The counters and tags** in every run. -/
theorem exchangeInv_of_reachable {s : Exchange child} (h : (exchange child).Reachable s) :
    ExchangeInv s := by
  refine Machine.Reachable.invariant (I := ExchangeInv) ?_
    (fun s a s' _ hs h => hs.step (exchange_step_move h)) h
  exact ⟨rfl, fun e he => by simp [exchange] at he, fun r hr => by simp [exchange] at hr,
    fun hpc => by simp [exchange] at hpc, fun hd => by simp [exchange] at hd⟩

/-! ### Getting stuck -/

/-- The consumer has received the end marker for its number of resets. -/
def Exchange.Ended (s : Exchange child) : Prop :=
  ∃ r ∈ s.results, r.epoch = s.num_resets_ ∧ r.value = none

/-- The consumer waits in `next()` for an entry that nobody will push: it has not received
the end marker, the buffer is empty, and the child thread has returned or waits for a
signal itself. -/
structure Exchange.Stuck (s : Exchange child) : Prop where
  consumer : s.consumer = .inNext
  not_ended : ¬ s.Ended
  buffer_ : s.buffer_ = []
  child : s.childPc = .exited ∨ (s.childPc = .pop ∧ s.signals_ = [])

/-- The child thread does not find a reset in mid-stream. -/
def NoMidstreamReset (s : Exchange child) (a : ExchangeAction) : Prop :=
  a = .child → s.childPc = .tryPop → s.signals_.head? ≠ some .reset

/-- Without resets in mid-stream only the destructor makes the child thread return. -/
structure PatientInv (s : Exchange child) : Prop where
  not_clear : s.childPc ≠ .clear
  not_resetAndReturn : s.childPc ≠ .resetAndReturn
  exited : s.childPc = .exited → s.consumer = .destroying

/-- A step that finds no reset in mid-stream keeps the child thread alive. -/
theorem PatientInv.step {s s' : Exchange child} {a : ExchangeAction} (hs : PatientInv s)
    (hinv : ExchangeInv s) (hok : NoMidstreamReset s a) (h : ExchangeMove s a s') :
    PatientInv s' := by
  cases h with
  | callNext hc => exact ⟨hs.1, hs.2, fun he => absurd (hs.3 he) (by simp [hc])⟩
  | skip e b hc hb htag => exact ⟨hs.1, hs.2, hs.3⟩
  | take e b hc hb htag => exact ⟨hs.1, hs.2, fun he => absurd (hs.3 he) (by simp [hc])⟩
  | callReset hc => exact ⟨hs.1, hs.2, fun he => absurd (hs.3 he) (by simp [hc])⟩
  | signal hc => exact ⟨hs.1, hs.2, fun he => absurd (hs.3 he) (by simp [hc])⟩
  | destroy hc => exact ⟨hs.1, hs.2, fun _ => rfl⟩
  | childSome t σ hpc hnext => exact ⟨by simp, by simp, by simp⟩
  | childNone σ hpc hnext => exact ⟨by simp, by simp, by simp⟩
  | pushTuple t hpc => exact ⟨by simp, by simp, by simp⟩
  | noSignal hpc hsig => exact ⟨by simp, by simp, by simp⟩
  | midReset ss hpc hsig => exact absurd (by rw [hsig]; rfl) (hok rfl hpc)
  | clear hpc => exact absurd hpc hs.1
  | resetAndReturn hpc => exact absurd hpc hs.2
  | pushEnd hpc => exact ⟨by simp, by simp, by simp⟩
  | endReset ss hpc hsig => exact ⟨by simp, by simp, by simp⟩
  | die ss hpc hsig => exact ⟨by simp, by simp, fun _ => hinv.die (hsig ▸ List.mem_cons_self)⟩

/-- And so does a run of such steps. -/
theorem patientInv_of_reachableBy {s : Exchange child}
    (h : (exchange child).ReachableBy NoMidstreamReset s) : PatientInv s := by
  refine Machine.ReachableBy.invariant (I := PatientInv) ⟨by simp [exchange], by simp [exchange],
    by simp [exchange]⟩ (fun s a s' hr hs hok hstep => ?_) h
  exact hs.step (exchangeInv_of_reachable hr.reachable) hok (exchange_step_move hstep)

/-- A patient child thread that waits for a signal has delivered the end marker that the
consumer waits for. -/
theorem not_stuck {s : Exchange child} (hinv : ExchangeInv s) (hs : PatientInv s) :
    ¬ s.Stuck := by
  intro hstuck
  have hc := hstuck.consumer
  rcases hstuck.child with hexit | ⟨hpc, hsig⟩
  · have := hs.exited hexit
    rw [hc] at this
    cases this
  · have hcount := hinv.counters
    rw [hc, hpc, hsig] at hcount
    simp only [List.count_nil, ConsumerPc.owes, ChildPc.owes, Nat.add_zero] at hcount
    rcases hinv.marker hpc hcount with hr | ⟨e, he, -⟩
    · exact hstuck.not_ended hr
    · rw [hstuck.buffer_] at he
      cases he

/-- Before the child thread has counted all resets, the consumer has received nothing. -/
theorem not_ended_of_lt {s : Exchange child} (hinv : ExchangeInv s)
    (hlt : s.num_resets < s.num_resets_) : ¬ s.Ended := by
  rintro ⟨r, hr, heq, -⟩
  have := (hinv.result r hr).1
  omega

/-- A child thread that reads a reset in mid-stream leaves a waiting consumer stuck. -/
theorem stuck_of_inNext {s : Exchange child} (hinv : ExchangeInv s) (hc : s.consumer = .inNext)
    (hpc : s.childPc = .tryPop) (hsig : s.signals_.head? = some .reset) :
    ∃ as s', (exchange child).run s as = some s' ∧ s'.Stuck := by
  obtain ⟨ss, hss⟩ := List.head?_eq_some_iff.mp hsig
  have hcount := hinv.counters
  rw [hss, List.count_cons_self] at hcount
  have hnot := not_ended_of_lt hinv (by omega)
  refine ⟨[.child, .child, .child], { s with
    signals_ := ss
    buffer_ := []
    childState := child.reset s.childState
    num_resets := s.num_resets + 1
    childPc := .exited }, ?_, hc, hnot, rfl, Or.inl rfl⟩
  simp [Machine.run, exchange, Exchange.childStep, hpc, hss]

/-- A child thread that reads a reset in mid-stream leaves any consumer stuck that calls
`next()` and not the destructor. -/
theorem stuck_of_midstream_reset {s : Exchange child} (h : (exchange child).Reachable s)
    (hc : s.consumer ≠ .destroying) (hpc : s.childPc = .tryPop)
    (hsig : s.signals_.head? = some .reset) :
    ∃ as s', (exchange child).run s as = some s' ∧ s'.Stuck := by
  have hidle : ∀ s : Exchange child, (exchange child).Reachable s → s.consumer = .idle →
      s.childPc = .tryPop → s.signals_.head? = some .reset →
      ∃ as s', (exchange child).run s as = some s' ∧ s'.Stuck := by
    intro s h hc hpc hsig
    have hstep : (exchange child).step s .callNext = some { s with consumer := .inNext } := by
      simp [exchange, hc]
    obtain ⟨as, s', hrun, hstuck⟩ :=
      stuck_of_inNext (exchangeInv_of_reachable (h.step hstep)) rfl hpc hsig
    exact ⟨.callNext :: as, s', by rw [Machine.run, hstep]; exact hrun, hstuck⟩
  cases hcon : s.consumer with
  | idle => exact hidle s h hcon hpc hsig
  | inNext => exact stuck_of_inNext (exchangeInv_of_reachable h) hcon hpc hsig
  | resetting =>
      have hstep : (exchange child).step s .signal =
          some { s with signals_ := s.signals_ ++ [.reset], consumer := .idle } := by
        simp [exchange, hcon]
      obtain ⟨as, s', hrun, hstuck⟩ :=
        hidle _ (h.step hstep) rfl hpc (by simp [List.head?_append, hsig])
      exact ⟨.signal :: as, s', by rw [Machine.run, hstep]; exact hrun, hstuck⟩
  | destroying => exact absurd hcon hc

/-- **When the exchange gets stuck.** No run in which the child thread never finds a reset
in mid-stream reaches a stuck state; and whenever it does find one, the destructor not
having started, the run can be continued to a stuck state. -/
theorem exchange_never_stuck (child : Operator α) :
    (∀ s, (exchange child).ReachableBy NoMidstreamReset s → ¬ s.Stuck) ∧
    ∀ s, (exchange child).Reachable s → s.consumer ≠ .destroying → s.childPc = .tryPop →
      s.signals_.head? = some .reset →
      ∃ as s', (exchange child).run s as = some s' ∧ s'.Stuck := by
  refine ⟨fun s h => ?_, fun s h hc hpc hsig => stuck_of_midstream_reset h hc hpc hsig⟩
  exact not_stuck (exchangeInv_of_reachable h.reachable) (patientInv_of_reachableBy h)

/-- The consumer takes the first of two tuples and resets; the child thread, which has not
looked for a signal since it pushed that tuple, finds the reset, and the consumer calls
`next()`. -/
def resetMidstream : List ExchangeAction :=
  [.child, .child, .callNext, .pop, .callReset, .signal, .child, .child, .child, .callNext]

/-- After the first six steps of `resetMidstream` the run can be continued to a stuck
state. -/
theorem exchange_never_stuck_midstream : ∃ s as s',
    (exchange (iterator [1, 2])).run (exchange (iterator [1, 2])).init
      (resetMidstream.take 6) = some s ∧
    (exchange (iterator [1, 2])).run s as = some s' ∧ s'.Stuck := by
  have hrun : ((exchange (iterator [1, 2])).run (exchange (iterator [1, 2])).init
      (resetMidstream.take 6)).map (fun s => (s.consumer, s.childPc, s.signals_)) =
      some (.idle, .tryPop, [.reset]) := rfl
  obtain ⟨s, hs, heq⟩ := Option.map_eq_some_iff.mp hrun
  simp only [Prod.mk.injEq] at heq
  obtain ⟨hc, hpc, hsig⟩ := heq
  obtain ⟨as, s', hs', hstuck⟩ := (exchange_never_stuck (iterator [1, 2])).2 s
    (Machine.reachable_of_run hs) (by simp [hc]) hpc (by simp [hsig])
  exact ⟨s, as, s', hs, hs', hstuck⟩

/-- The run `resetMidstream` over the stream `1, 2` ends stuck. -/
theorem reset_midstream_gets_stuck : ∃ s,
    (exchange (iterator [1, 2])).run (exchange (iterator [1, 2])).init resetMidstream = some s ∧
      s.results = [⟨0, some 1, 0⟩] ∧ s.num_resets_ = 1 ∧ s.Stuck := by
  have hrun : ((exchange (iterator [1, 2])).run (exchange (iterator [1, 2])).init
      resetMidstream).map
      (fun s => (s.consumer, s.results, s.num_resets_, s.buffer_, s.childPc)) =
      some (.inNext, [⟨0, some 1, 0⟩], 1, [], .exited) := rfl
  obtain ⟨s, hs, heq⟩ := Option.map_eq_some_iff.mp hrun
  simp only [Prod.mk.injEq] at heq
  obtain ⟨hc, hres, hnum, hbuf, hpc⟩ := heq
  refine ⟨s, hs, hres, hnum, hc, ?_, hbuf, Or.inl hpc⟩
  rintro ⟨r, hr, hepoch, -⟩
  rw [hres] at hr
  obtain rfl := List.mem_singleton.mp hr
  rw [hnum] at hepoch
  cases hepoch

/-! ### The stream -/

/-- The results returned after `r` resets. -/
def Exchange.resultsOf (s : Exchange child) (r : ℕ) : List (Option α) :=
  (s.results.filter fun x => x.epoch = r).map Returned.value

/-- The entries in a buffer that are tagged with `r`. -/
def taggedWith (r : ℕ) (buffer_ : List (Entry α)) : List (Option α) :=
  (buffer_.filter fun e => e.tag = r).map Entry.value

/-- A stream with its end marker. -/
def marked (stream : List α) : List (Option α) :=
  stream.map some ++ [none]

/-- What the child thread will still push before its next reset. -/
def Upcoming (child : Operator α) : ChildPc α → child.State → List (Option α) → Prop
  | .callNext, σ, rest | .tryPop, σ, rest => ∃ xs, child.Yields σ xs ∧ rest = marked xs
  | .pushTuple t, σ, rest => ∃ xs, child.Yields σ xs ∧ rest = some t :: marked xs
  | .pushEnd, _, rest => rest = [none]
  | .pop, _, rest => rest = []
  | .clear, _, _ | .resetAndReturn, _, _ | .exited, _, _ => True

/-- While the counters agree, what was returned, what is in the buffer and what will still
be pushed make up the stream; while they do not, the stream is still to come. The results
of earlier numbers of resets are beginnings of the stream. -/
structure StreamInv (stream : List α) (s : Exchange child) : Prop where
  current : ∃ rest,
    s.resultsOf s.num_resets_ ++ taggedWith s.num_resets_ s.buffer_ ++ rest = marked stream ∧
    (s.num_resets = s.num_resets_ → Upcoming child s.childPc s.childState rest) ∧
    (s.num_resets ≠ s.num_resets_ → rest = marked stream)
  past : ∀ r, r ≠ s.num_resets_ → s.resultsOf r <+: marked stream

section Stream

variable {stream : List α} {s s' : Exchange child}

/-- Nothing is tagged with a number of resets that the child thread has not counted. -/
theorem ExchangeInv.taggedWith_eq_nil (hinv : ExchangeInv s) {r : ℕ} (hr : s.num_resets < r) :
    taggedWith r s.buffer_ = [] := by
  simp only [taggedWith, List.map_eq_nil_iff, List.filter_eq_nil_iff, decide_eq_true_eq]
  intro e he heq
  have := (hinv.entry e he).1
  omega

/-- Nothing is returned under a number of resets that the child thread has not counted. -/
theorem ExchangeInv.resultsOf_eq_nil (hinv : ExchangeInv s) {r : ℕ} (hr : s.num_resets < r) :
    s.resultsOf r = [] := by
  simp only [Exchange.resultsOf, List.map_eq_nil_iff, List.filter_eq_nil_iff, decide_eq_true_eq]
  intro x hx heq
  have := (hinv.result x hx).1
  omega

/-- An entry in front counts if it has the tag. -/
theorem taggedWith_cons (r : ℕ) (e : Entry α) (b : List (Entry α)) :
    taggedWith r (e :: b) = if e.tag = r then e.value :: taggedWith r b else taggedWith r b := by
  by_cases h : e.tag = r <;> simp [taggedWith, h]

/-- An entry behind counts if it has the tag. -/
theorem taggedWith_push (r : ℕ) (b : List (Entry α)) (e : Entry α) :
    taggedWith r (b ++ [e]) = taggedWith r b ++ if e.tag = r then [e.value] else [] := by
  by_cases h : e.tag = r <;> simp [taggedWith, h]

/-- All results of the current number of resets are a beginning of the stream. -/
theorem StreamInv.resultsOf_beginning (hs : StreamInv stream s) (r : ℕ) :
    s.resultsOf r <+: marked stream := by
  by_cases hr : r = s.num_resets_
  · obtain ⟨rest, heq, -⟩ := hs.current
    rw [hr, ← heq, List.append_assoc]
    exact List.prefix_append _ _
  · exact hs.past r hr

/-- Steps that keep the buffer, the results and the counters keep the invariant as long as
the child thread will still push the same. -/
theorem StreamInv.congr (hs : StreamInv stream s) (hbuf : s'.buffer_ = s.buffer_)
    (hres : s'.results = s.results) (hnum : s'.num_resets_ = s.num_resets_)
    (hchild : s'.num_resets = s.num_resets)
    (hup : s.num_resets = s.num_resets_ → ∀ rest, Upcoming child s.childPc s.childState rest →
      Upcoming child s'.childPc s'.childState rest) : StreamInv stream s' := by
  have hof : ∀ r, s'.resultsOf r = s.resultsOf r := fun r => by
    rw [Exchange.resultsOf, hres, Exchange.resultsOf]
  obtain ⟨rest, heq, hcur, hnew⟩ := hs.current
  refine ⟨⟨rest, ?_, fun h => ?_, fun h => ?_⟩, fun r hr => ?_⟩
  · rw [hnum, hof, hbuf, heq]
  · rw [hnum, hchild] at h
    exact hup h rest (hcur h)
  · rw [hnum, hchild] at h
    exact hnew h
  · rw [hof]
    exact hs.past r (hnum ▸ hr)

/-- A push of the child thread moves the first of what it will push into the buffer. -/
theorem StreamInv.push (hs : StreamInv stream s) {v : Option α} {pc : ChildPc α}
    (hup : s.num_resets = s.num_resets_ → ∀ rest, Upcoming child s.childPc s.childState rest →
      ∃ rest', rest = v :: rest' ∧ Upcoming child pc s.childState rest') :
    StreamInv stream { s with
      buffer_ := s.buffer_ ++ [⟨s.num_resets, v, s.num_resets_⟩]
      childPc := pc } := by
  obtain ⟨rest, heq, hcur, hnew⟩ := hs.current
  by_cases hnum : s.num_resets = s.num_resets_
  · obtain ⟨rest', rfl, hup'⟩ := hup hnum rest (hcur hnum)
    refine ⟨⟨rest', ?_, fun _ => hup', fun h => absurd hnum h⟩, hs.past⟩
    simp only [taggedWith_push, if_pos hnum]
    rw [← heq]
    simp [Exchange.resultsOf]
  · refine ⟨⟨rest, ?_, fun h => absurd h hnum, hnew⟩, hs.past⟩
    simp only [taggedWith_push, if_neg hnum, List.append_nil]
    exact heq

/-- The child thread counts a reset that it had not counted: the stream is still to come. -/
theorem StreamInv.count (hs : StreamInv stream s) (hlt : s.num_resets < s.num_resets_)
    (hbuf : s'.buffer_ = s.buffer_) (hres : s'.results = s.results)
    (hnum : s'.num_resets_ = s.num_resets_)
    (hup : Upcoming child s'.childPc s'.childState (marked stream)) : StreamInv stream s' := by
  have hof : ∀ r, s'.resultsOf r = s.resultsOf r := fun r => by
    rw [Exchange.resultsOf, hres, Exchange.resultsOf]
  obtain ⟨rest, heq, -, hnew⟩ := hs.current
  obtain rfl := hnew (by omega)
  refine ⟨⟨marked stream, ?_, fun _ => hup, fun _ => rfl⟩, fun r hr => ?_⟩
  · rw [hnum, hof, hbuf, heq]
  · rw [hof]
    exact hs.past r (hnum ▸ hr)

/-- The consumer resets: nothing is tagged with the new number of resets yet. -/
theorem StreamInv.callReset (hs : StreamInv stream s) (hinv : ExchangeInv s) :
    StreamInv stream { s with num_resets_ := s.num_resets_ + 1, consumer := .resetting } := by
  have hle := hinv.num_resets_le
  refine ⟨⟨marked stream, ?_, fun h => ?_, fun _ => rfl⟩, fun r _ => hs.resultsOf_beginning r⟩
  · have htag := hinv.taggedWith_eq_nil (r := s.num_resets_ + 1) (by omega)
    have hnil := hinv.resultsOf_eq_nil (r := s.num_resets_ + 1) (by omega)
    simp only [Exchange.resultsOf] at hnil ⊢
    rw [htag, hnil]
    rfl
  · simp only at h
    omega

/-- The consumer drops an entry of an earlier number of resets. -/
theorem StreamInv.skip (hs : StreamInv stream s) {e : Entry α} {b : List (Entry α)}
    (hb : s.buffer_ = e :: b) (htag : e.tag ≠ s.num_resets_) :
    StreamInv stream { s with buffer_ := b } := by
  obtain ⟨rest, heq, hcur, hnew⟩ := hs.current
  refine ⟨⟨rest, ?_, hcur, hnew⟩, hs.past⟩
  rw [hb, taggedWith_cons, if_neg htag] at heq
  exact heq

/-- The consumer returns an entry of the current number of resets. -/
theorem StreamInv.take (hs : StreamInv stream s) {e : Entry α} {b : List (Entry α)}
    (hb : s.buffer_ = e :: b) (htag : e.tag = s.num_resets_) :
    StreamInv stream { s with
      buffer_ := b
      consumer := .idle
      results := s.results ++ [⟨s.num_resets_, e.value, e.pushedAt⟩] } := by
  obtain ⟨rest, heq, hcur, hnew⟩ := hs.current
  rw [hb, taggedWith_cons, if_pos htag] at heq
  refine ⟨⟨rest, ?_, hcur, hnew⟩, fun r hr => ?_⟩
  · rw [← heq]
    simp [Exchange.resultsOf]
  · have hpast := hs.past r hr
    simpa [Exchange.resultsOf, Ne.symm hr] using hpast

/-- Every step keeps the invariant. -/
theorem StreamInv.step {a : ExchangeAction} (hs : StreamInv stream s) (hinv : ExchangeInv s)
    (hchild : child.Restarts stream) (h : ExchangeMove s a s') : StreamInv stream s' := by
  have hcount := hinv.counters
  cases h with
  | callNext hc => exact hs.congr rfl rfl rfl rfl fun _ _ h => h
  | skip e b hc hb htag => exact hs.skip hb htag
  | take e b hc hb htag => exact hs.take hb htag
  | callReset hc => exact hs.callReset hinv
  | signal hc => exact hs.congr rfl rfl rfl rfl fun _ _ h => h
  | destroy hc => exact hs.congr rfl rfl rfl rfl fun _ _ h => h
  | childSome t σ hpc hnext =>
      refine hs.congr rfl rfl rfl rfl fun _ rest hup => ?_
      rw [hpc] at hup
      obtain ⟨xs, hxs, rfl⟩ := hup
      cases xs with
      | nil =>
          rw [Operator.Yields, hnext] at hxs
          cases hxs
      | cons x xs =>
          obtain ⟨hx, hrest⟩ := hxs
          rw [hnext] at hx hrest
          obtain rfl : t = x := Option.some.inj hx
          exact ⟨xs, hrest, rfl⟩
  | childNone σ hpc hnext =>
      refine hs.congr rfl rfl rfl rfl fun _ rest hup => ?_
      rw [hpc] at hup
      obtain ⟨xs, hxs, rfl⟩ := hup
      cases xs with
      | nil => rfl
      | cons x xs =>
          have hx := hxs.1
          rw [hnext] at hx
          cases hx
  | pushTuple t hpc =>
      refine hs.push fun _ rest hup => ?_
      rw [hpc] at hup
      obtain ⟨xs, hxs, rfl⟩ := hup
      exact ⟨marked xs, rfl, xs, hxs, rfl⟩
  | noSignal hpc hsig =>
      refine hs.congr rfl rfl rfl rfl fun _ rest hup => ?_
      rw [hpc] at hup
      exact hup
  | midReset ss hpc hsig => exact hs.congr rfl rfl rfl rfl fun _ _ _ => trivial
  | clear hpc =>
      -- A reset is under way: what the buffer holds is tagged with an earlier number.
      rw [hpc] at hcount
      simp only [ChildPc.owes] at hcount
      obtain ⟨rest, heq, hcur, hnew⟩ := hs.current
      rw [hinv.taggedWith_eq_nil (by omega)] at heq
      exact ⟨⟨rest, heq, fun _ => trivial, hnew⟩, hs.past⟩
  | resetAndReturn hpc =>
      rw [hpc] at hcount
      simp only [ChildPc.owes] at hcount
      exact hs.count (by omega) rfl rfl rfl trivial
  | pushEnd hpc =>
      refine hs.push fun _ rest hup => ?_
      rw [hpc] at hup
      exact ⟨[], hup, rfl⟩
  | endReset ss hpc hsig =>
      rw [hsig, List.count_cons_self] at hcount
      exact hs.count (by omega) rfl rfl rfl ⟨stream, hchild.reset _, rfl⟩
  | die ss hpc hsig => exact hs.congr rfl rfl rfl rfl fun _ _ _ => trivial

/-- **The invariant** holds in every state of every run. -/
theorem streamInv_of_reachable (hchild : child.Restarts stream)
    (h : (exchange child).Reachable s) : StreamInv stream s := by
  refine Machine.Reachable.invariant (I := StreamInv stream) ?_ (fun s a s' hr hs hstep =>
    hs.step (exchangeInv_of_reachable hr) hchild (exchange_step_move hstep)) h
  refine ⟨⟨marked stream, rfl, fun _ => ⟨stream, hchild.init, rfl⟩, fun _ => rfl⟩, fun r _ => ?_⟩
  exact List.nil_prefix

end Stream

/-- **The exchange returns its child's stream.** In every run over a child that restarts
the same stream: the results between the `r`-th and the next reset are a beginning of the
stream with one end marker; every result was pushed after the reset under which it was
returned; and when the child thread clears the buffer, no entry in it belongs to the
current number of resets. -/
theorem exchange_returns_stream {child : Operator α} {stream : List α}
    (hchild : child.Restarts stream) {s : Exchange child} (h : (exchange child).Reachable s) :
    (∀ r, s.resultsOf r <+: marked stream) ∧
    (∀ x ∈ s.results, x.pushedAt = x.epoch) ∧
    (s.childPc = .clear → ∀ e ∈ s.buffer_, e.tag ≠ s.num_resets_) := by
  have hinv := exchangeInv_of_reachable h
  refine ⟨(streamInv_of_reachable hchild h).resultsOf_beginning, fun x hx => (hinv.result x hx).2,
    fun hpc e he heq => ?_⟩
  have hcount := hinv.counters
  rw [hpc] at hcount
  simp only [ChildPc.owes] at hcount
  have htag := (hinv.entry e he).1
  omega

/-- The consumer reads `1, 2` and the end marker, resets, and reads `1` again. -/
def readAndReset : List ExchangeAction :=
  [.child, .child, .child, .child, .child, .child, .child, .child,
   .callNext, .pop, .callNext, .pop, .callNext, .pop,
   .callReset, .signal, .child, .child, .child, .callNext, .pop]

/-- The results of the run `readAndReset` over the stream `1, 2`. -/
theorem exchange_returns_stream_twice : ∃ s,
    (exchange (iterator [1, 2])).run (exchange (iterator [1, 2])).init readAndReset = some s ∧
      s.resultsOf 0 = [some 1, some 2, none] ∧ s.resultsOf 1 = [some 1] ∧
      (∀ r, s.resultsOf r <+: marked [1, 2]) := by
  have hrun : ((exchange (iterator [1, 2])).run (exchange (iterator [1, 2])).init
      readAndReset).map (fun s => (s.resultsOf 0, s.resultsOf 1)) =
      some ([some 1, some 2, none], [some 1]) := rfl
  obtain ⟨s, hs, heq⟩ := Option.map_eq_some_iff.mp hrun
  obtain ⟨h0, h1⟩ := Prod.mk.inj heq
  exact ⟨s, hs, h0, h1,
    (exchange_returns_stream (restarts_iterator [1, 2]) (Machine.reachable_of_run hs)).1⟩

end LatticeFlow
