import Mathlib.Data.List.Basic

/-!
# Operators

`Operator<Ts...>` of `flow/operator.h` is an interface with two methods: `next` returns
the next tuple or nothing, and `reset` starts over. An operator is modelled by the type of
its states, with `next` and `reset` as functions on it.

`Yields s xs` says what a state delivers: `next` returns the elements of `xs` one after
another and then nothing. An operator `Restarts` a stream when it delivers it from the
beginning and after every reset. It is finite when every one of its states delivers a
list; the loops over a finite operator end, which `FiniteOperator.wellFounded` states in
the form their definitions need.

## Main results

* `FiniteOperator.wellFounded`: a loop over a finite operator ends.
* `restarts_iterator`: `Iterator` restarts the sequence between its two iterators.
-/

namespace LatticeFlow

/-- `Operator<Ts...>`. -/
structure Operator (α : Type) where
  State : Type
  init : State
  next : State → Option α × State
  reset : State → State

namespace Operator

variable {α : Type}

/-- The state delivers the elements of the list one after another, and then nothing. -/
def Yields (op : Operator α) : op.State → List α → Prop
  | s, [] => (op.next s).1 = none
  | s, x :: xs => (op.next s).1 = some x ∧ op.Yields (op.next s).2 xs

/-- What a state delivers depends on what it does next only. -/
theorem Yields.congr {op : Operator α} {s s' : op.State} {xs : List α}
    (hnext : op.next s = op.next s') (h : op.Yields s' xs) : op.Yields s xs := by
  cases xs with
  | nil =>
      rw [Yields, hnext]
      exact h
  | cons x xs =>
      rw [Yields, hnext]
      exact h

/-- The operator delivers the stream from the beginning and after every reset. -/
structure Restarts (op : Operator α) (stream : List α) : Prop where
  init : op.Yields op.init stream
  reset : ∀ s, op.Yields (op.reset s) stream

end Operator

/-- An operator all of whose states deliver finitely many tuples. -/
structure FiniteOperator (α : Type) extends Operator α where
  finite : ∀ s, ∃ xs, toOperator.Yields s xs

/-- The successful calls of `next` in a row are finitely many, from every state. -/
theorem FiniteOperator.wellFounded {α : Type} (op : FiniteOperator α) :
    WellFounded fun s' s : op.State => ∃ x, op.next s = (some x, s') := by
  have hacc : ∀ xs s, op.Yields s xs →
      Acc (fun s' s : op.State => ∃ x, op.next s = (some x, s')) s := by
    intro xs
    induction xs with
    | nil =>
        refine fun s hs => ⟨s, ?_⟩
        rintro s' ⟨x, hx⟩
        rw [Operator.Yields, hx] at hs
        cases hs
    | cons y ys ih =>
        refine fun s hs => ⟨s, ?_⟩
        rintro s' ⟨x, hx⟩
        have hrest := hs.2
        rw [hx] at hrest
        exact ih s' hrest
  refine ⟨fun s => ?_⟩
  obtain ⟨xs, hxs⟩ := op.finite s
  exact hacc xs s hxs

/-! ### Iterator -/

variable {α : Type}

/-- `Iterator`, over the sequence `xs` from `begin_` to `end_`; its state is the position
of `it_`. -/
def iterator (xs : List α) : Operator α where
  State := ℕ
  init := 0
  next it_ :=
    match xs[it_]? with
    | some x => (some x, it_ + 1)
    | none => (none, it_)
  reset _ := 0

/-- At a position the iterator delivers what comes after it. -/
theorem yields_iterator (xs : List α) (n : ℕ) :
    (iterator xs).Yields (n : ℕ) (xs.drop n) := by
  by_cases hn : n < xs.length
  · have hdrop := List.drop_eq_getElem_cons hn
    have hget : xs[n]? = some xs[n] := List.getElem?_eq_getElem hn
    rw [hdrop]
    refine ⟨?_, ?_⟩
    · simp [iterator, hget]
    · have ih := yields_iterator xs (n + 1)
      simpa [iterator, hget] using ih
  · have hget : xs[n]? = none := List.getElem?_eq_none (by omega)
    rw [List.drop_eq_nil_of_le (by omega)]
    simp [Operator.Yields, iterator, hget]
  termination_by xs.length - n

/-- An iterator delivers its elements, and delivers them again after a reset. -/
theorem restarts_iterator (xs : List α) : (iterator xs).Restarts xs :=
  ⟨yields_iterator xs 0, fun _ => yields_iterator xs 0⟩

/-- `Iterator` is finite. -/
def finiteIterator (xs : List α) : FiniteOperator α where
  toOperator := iterator xs
  finite n := ⟨xs.drop n, yields_iterator xs n⟩

end LatticeFlow
