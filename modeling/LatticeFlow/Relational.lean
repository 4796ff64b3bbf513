import LatticeFlow.Equijoin

/-!
# Trees of Relational Operators

The operators `Empty`, `Map`, `Filter` and `Cross` of `flow/`, and trees of these with
`Iterator` and `NaiveEquijoin` in which every operator has one parent. The loop of
`Filter::next` and the nested loops of the two joins call `next` on their children until it
returns nothing; they end because the children are finite.

A **relation** is what such a tree has to be for its parent: an operator that delivers one
stream after every reset, whatever happened to it before, is finite in each of its states,
and returns nothing for ever once it has returned nothing. `Relation` carries these facts,
so that the operators below can be built from their children.

## Main results

* `Relation.nthNext_reset`: what a relation returns after a reset.
* `operator_denote`: every tree returns, after any history and a reset, the list that it
  denotes, and then nothing.
-/

namespace LatticeFlow

/-! ### Calls -/

/-- A call of a method of an operator. -/
inductive OperatorCall
  | next
  | reset
  deriving DecidableEq, Repr

namespace Operator

variable {α : Type} (op : Operator α)

/-- The state after some calls. -/
def after (calls : List OperatorCall) : op.State :=
  calls.foldl (fun s call =>
    match call with
    | .next => (op.next s).2
    | .reset => op.reset s) op.init

/-- What the call of `next` after `n` calls of it returns. -/
def nthNext : op.State → ℕ → Option α
  | s, 0 => (op.next s).1
  | s, n + 1 => nthNext (op.next s).2 n

/-- Once `next` has returned nothing it returns nothing the next time. -/
def StaysEmpty : Prop :=
  ∀ s, (op.next s).1 = none → (op.next (op.next s).2).1 = none

variable {op}

/-- After its first `none` an operator delivers nothing. -/
theorem StaysEmpty.nthNext_eq_none (h : op.StaysEmpty) {s : op.State}
    (hs : (op.next s).1 = none) (n : ℕ) : op.nthNext s n = none := by
  induction n generalizing s with
  | zero => exact hs
  | succ n ih => exact ih (h s hs)

/-- A state delivers its list element by element, and then nothing for ever. -/
theorem StaysEmpty.nthNext_eq (h : op.StaysEmpty) {s : op.State} {xs : List α}
    (hs : op.Yields s xs) (n : ℕ) : op.nthNext s n = xs[n]? := by
  induction xs generalizing s n with
  | nil => exact h.nthNext_eq_none hs n
  | cons x xs ih =>
      cases n with
      | zero => exact hs.1
      | succ n => exact ih hs.2 n

end Operator

/-- A finite operator that restarts a stream and stays empty when it is exhausted. -/
structure Relation (α : Type) extends FiniteOperator α where
  stream : List α
  restarts : toOperator.Restarts stream
  staysEmpty : toOperator.StaysEmpty

/-- **After a reset** a relation returns its stream and then nothing, whatever was called
before. -/
theorem Relation.nthNext_reset {α : Type} (r : Relation α) (s : r.State) (n : ℕ) :
    r.nthNext (r.reset s) n = r.stream[n]? :=
  r.staysEmpty.nthNext_eq (r.restarts.reset s) n

/-! ### Operators without a loop -/

variable {α β : Type}

/-- An iterator that has ended stays so. -/
theorem staysEmpty_iterator (xs : List α) : (iterator xs).StaysEmpty := by
  intro (n : ℕ) hn
  cases hget : xs[n]? with
  | none => simp [iterator, hget]
  | some x => simp [iterator, hget] at hn

/-- `Empty`. -/
def Operator.empty (α : Type) : Operator α where
  State := Unit
  init := ()
  next s := (none, s)
  reset s := s

/-- `Map`. -/
def Operator.map (child : Operator α) (f : α → β) : Operator β where
  State := child.State
  init := child.init
  next s :=
    match child.next s with
    | (some x, s') => (some (f x), s')
    | (none, s') => (none, s')
  reset := child.reset

/-- `map` applies its function to what the child delivers. -/
theorem map_next (child : Operator α) (f : α → β) (s : child.State) :
    (child.map f).next s = ((child.next s).1.map f, (child.next s).2) := by
  simp only [Operator.map]
  split <;> simp_all

/-- `map` yields the images. -/
theorem yields_map {child : Operator α} (f : α → β) {s : child.State} {xs : List α}
    (h : child.Yields s xs) : (child.map f).Yields s (xs.map f) := by
  induction xs generalizing s with
  | nil =>
      have hnone : (child.next s).1 = none := h
      simp [Operator.Yields, map_next, hnone]
  | cons x xs ih =>
      refine ⟨by rw [map_next, h.1]; rfl, ?_⟩
      rw [map_next]
      exact ih h.2

/-- `map` ends with its child. -/
theorem staysEmpty_map {child : Operator α} (f : α → β) (h : child.StaysEmpty) :
    (child.map f).StaysEmpty := by
  intro (s : child.State) hs
  rw [map_next, Option.map_eq_none_iff] at hs
  simp only [map_next, h s hs, Option.map_none]

/-! ### Filter -/

set_option linter.unusedVariables false in
/-- `Filter::next`: skip what the predicate rejects. -/
def filterNext (child : FiniteOperator α) (p : α → Bool) (s : child.State) :
    Option α × child.State :=
  match h : child.next s with
  | (none, s') => (none, s')
  | (some x, s') => if p x then (some x, s') else filterNext child p s'
  termination_by child.wellFounded.wrap s
  decreasing_by exact ⟨x, h⟩

/-- `Filter`. -/
def FiniteOperator.filter (child : FiniteOperator α) (p : α → Bool) : Operator α where
  State := child.State
  init := child.init
  next := filterNext child p
  reset := child.reset

section Filter

variable {child : FiniteOperator α} {p : α → Bool} {s s' : child.State} {x : α}

/-- The child is exhausted. -/
theorem filterNext_none (h : child.next s = (none, s')) :
    filterNext child p s = (none, s') := by
  rw [filterNext]
  split
  · rename_i heq
    rw [h] at heq
    cases heq
    rfl
  · rename_i heq
    rw [h] at heq
    cases heq

/-- The loop takes a tuple of the child. -/
theorem filterNext_some (h : child.next s = (some x, s')) :
    filterNext child p s = if p x then (some x, s') else filterNext child p s' := by
  rw [filterNext]
  split
  · rename_i heq
    rw [h] at heq
    cases heq
  · rename_i heq
    rw [h] at heq
    cases heq
    rfl

/-- `filter` yields the elements that meet the predicate. -/
theorem yields_filter {xs : List α} (h : child.Yields s xs) :
    (child.filter p).Yields s (xs.filter p) := by
  induction xs generalizing s with
  | nil =>
      have hnext : child.next s = (none, (child.next s).2) := Prod.ext h rfl
      exact congrArg Prod.fst (filterNext_none hnext)
  | cons x xs ih =>
      have hnext : child.next s = (some x, (child.next s).2) := Prod.ext h.1 rfl
      by_cases hp : p x = true
      · have hloop : filterNext child p s = (some x, (child.next s).2) :=
          (filterNext_some hnext).trans (if_pos hp)
        rw [List.filter_cons_of_pos hp]
        refine ⟨congrArg Prod.fst hloop, ?_⟩
        change (child.filter p).Yields (filterNext child p s).2 _
        rw [hloop]
        exact ih h.2
      · have hloop : filterNext child p s = filterNext child p (child.next s).2 :=
          (filterNext_some hnext).trans (if_neg hp)
        rw [List.filter_cons_of_neg hp]
        exact (ih h.2).congr hloop

/-- If `Filter::next` returns nothing, so did the last call of the child's `next`. -/
theorem filterNext_eq_none (h : (filterNext child p s).1 = none) :
    ∃ s', child.next s' = (none, (filterNext child p s).2) := by
  induction s using child.wellFounded.induction with
  | _ s ih =>
      cases hnext : child.next s with
      | mk o s₁ =>
          cases o with
          | none =>
              rw [filterNext_none hnext]
              exact ⟨s, hnext⟩
          | some x =>
              rw [filterNext_some hnext] at h ⊢
              split_ifs at h ⊢ with hp
              exact ih s₁ ⟨x, hnext⟩ h

end Filter

/-! ### Cross -/

variable {ls rs : List Type}

/-- `Cross`: its `reset`, which the constructor calls too, resets both children and starts
`YieldNext` anew. -/
def cross (left : FiniteOperator (Tuple ls)) (right : FiniteOperator (Tuple rs)) :
    Operator (Tuple (ls ++ rs)) :=
  coroutineOperator (nestedLoopCoroutine left right fun _ _ => true)
    ⟨.outer, left.reset left.init, right.reset right.init⟩
    fun f => ⟨.outer, left.reset f.leftState, right.reset f.rightState⟩

/-- A coroutine that has ended stays ended. -/
theorem staysEmpty_coroutineOperator {body : Coroutine α} {init : body.Frame}
    {restart : body.Frame → body.Frame} :
    (coroutineOperator body init restart).StaysEmpty := by
  intro s hs
  have hnone : s.current = none := by
    cases hcurrent : s.current with
    | none => rfl
    | some p => simp [coroutineOperator, CoroutineOperator.next, hcurrent] at hs
  simp [coroutineOperator, CoroutineOperator.next, hnone]

/-- An operator is finite if its coroutine yields finitely many tuples from every place. -/
theorem finite_coroutineOperator {body : Coroutine α} {init : body.Frame}
    {restart : body.Frame → body.Frame} (h : ∀ f, ∃ xs, body.Yields f xs)
    (s : CoroutineOperator body) :
    ∃ xs, (coroutineOperator body init restart).Yields s xs := by
  cases hcurrent : s.current with
  | none =>
      refine ⟨[], ?_⟩
      simp [Operator.Yields, coroutineOperator, CoroutineOperator.next, hcurrent]
  | some p =>
      obtain ⟨xs, hxs⟩ := h s.frame
      refine ⟨p :: xs, by simp [coroutineOperator, CoroutineOperator.next, hcurrent], ?_⟩
      have hnext : ((coroutineOperator body init restart).next s).2 =
          CoroutineOperator.start s.frame := by
        simp [coroutineOperator, CoroutineOperator.next, hcurrent]
      rw [hnext]
      exact yields_start hxs

/-- A nested loop yields finitely many tuples from every place, if its right child restarts
a stream. -/
theorem finite_nestedLoop {left : FiniteOperator (Tuple ls)} {right : FiniteOperator (Tuple rs)}
    {keep : Tuple ls → Tuple rs → Bool} {ys : List (Tuple rs)}
    (hreset : ∀ rst, right.Yields (right.reset rst) ys)
    (f : JoinFrame left.toOperator right.toOperator) :
    ∃ out, (nestedLoopCoroutine left right keep).Yields f out := by
  have hinner : ∀ l lst rst, ∃ out,
      (nestedLoopCoroutine left right keep).Yields ⟨.inner l, lst, rst⟩ out := by
    intro l lst rst
    obtain ⟨xs, hxs⟩ := left.finite lst
    obtain ⟨zs, hzs⟩ := right.finite rst
    exact ⟨_, yields_inner (fun rst' => yields_outer hreset hxs (hreset rst')) hzs⟩
  obtain ⟨pc, lst, rst⟩ := f
  cases pc with
  | inner l => exact hinner l lst rst
  | outer =>
      cases hnext : left.next lst with
      | mk o lst' =>
          cases o with
          | none => exact ⟨[], congrArg Prod.fst (nestedLoop_outer_none hnext)⟩
          | some l =>
              obtain ⟨out, hout⟩ := hinner l lst' rst
              exact ⟨out, hout.congr (nestedLoop_outer_some hnext)⟩

/-! ### Trees -/

/-- A tree of operators over tuples of the given types. -/
inductive OperatorTree : List Type → Type 1
  | iterator {ts : List Type} (xs : List (Tuple ts)) : OperatorTree ts
  | empty {ts : List Type} : OperatorTree ts
  | map {ts us : List Type} (child : OperatorTree ts) (f : Tuple ts → Tuple us) :
      OperatorTree us
  | filter {ts : List Type} (child : OperatorTree ts) (p : Tuple ts → Bool) : OperatorTree ts
  | cross {ls rs : List Type} (left : OperatorTree ls) (right : OperatorTree rs) :
      OperatorTree (ls ++ rs)
  | naiveEquijoin {ls rs : List Type} {K : Type} [DecidableEq K] (left : OperatorTree ls)
      (right : OperatorTree rs) (leftIndex : Column K ls) (rightIndex : Column K rs) :
      OperatorTree (ls ++ rs)

/-- The list that a tree denotes. -/
def OperatorTree.denote : {ts : List Type} → OperatorTree ts → List (Tuple ts)
  | _, .iterator xs => xs
  | _, .empty => []
  | _, .map child f => child.denote.map f
  | _, .filter child p => child.denote.filter p
  | _, .cross left right =>
      left.denote.flatMap fun l => right.denote.map fun r => tupleCat l r
  | _, @OperatorTree.naiveEquijoin _ _ _ _ left right leftIndex rightIndex =>
      left.denote.flatMap fun l =>
        (right.denote.filter fun r => leftIndex.get l = rightIndex.get r).map fun r =>
          tupleCat l r

namespace Relation

/-- `Iterator` as a relation. -/
def iterator (xs : List α) : Relation α where
  toFiniteOperator := finiteIterator xs
  stream := xs
  restarts := restarts_iterator xs
  staysEmpty := staysEmpty_iterator xs

/-- `Empty` as a relation. -/
def empty (α : Type) : Relation α where
  toOperator := Operator.empty α
  finite _ := ⟨[], rfl⟩
  stream := []
  restarts := ⟨rfl, fun _ => rfl⟩
  staysEmpty _ _ := rfl

/-- `Map` as a relation. -/
def map (child : Relation α) (f : α → β) : Relation β where
  toOperator := child.toOperator.map f
  finite s := by
    obtain ⟨xs, hxs⟩ := child.finite s
    exact ⟨xs.map f, yields_map f hxs⟩
  stream := child.stream.map f
  restarts := ⟨yields_map f child.restarts.init, fun s => yields_map f (child.restarts.reset s)⟩
  staysEmpty := staysEmpty_map f child.staysEmpty

/-- `Filter` as a relation. -/
def filter (child : Relation α) (p : α → Bool) : Relation α where
  toOperator := child.toFiniteOperator.filter p
  finite s := by
    obtain ⟨xs, hxs⟩ := child.finite s
    exact ⟨xs.filter p, yields_filter hxs⟩
  stream := child.stream.filter p
  restarts := ⟨yields_filter child.restarts.init, fun s => yields_filter (child.restarts.reset s)⟩
  staysEmpty s hs := by
    obtain ⟨s', hs'⟩ := filterNext_eq_none hs
    have hempty := child.staysEmpty s' (congrArg Prod.fst hs')
    rw [hs'] at hempty
    exact congrArg Prod.fst (filterNext_none (Prod.ext hempty rfl))

/-- `Cross` as a relation. -/
def cross (left : Relation (Tuple ls)) (right : Relation (Tuple rs)) :
    Relation (Tuple (ls ++ rs)) where
  toOperator := LatticeFlow.cross left.toFiniteOperator right.toFiniteOperator
  finite := finite_coroutineOperator (finite_nestedLoop right.restarts.reset)
  stream := nestedPairs (fun _ _ => true) left.stream right.stream
  restarts := restarts_nestedLoop left.restarts right.restarts
  staysEmpty := staysEmpty_coroutineOperator

/-- `NaiveEquijoin` as a relation. -/
def naiveEquijoin {K : Type} [DecidableEq K] (left : Relation (Tuple ls))
    (right : Relation (Tuple rs)) (leftIndex : Column K ls) (rightIndex : Column K rs) :
    Relation (Tuple (ls ++ rs)) where
  toOperator := LatticeFlow.naiveEquijoin left.toFiniteOperator right.toFiniteOperator
    leftIndex rightIndex
  finite := finite_coroutineOperator (finite_nestedLoop right.restarts.reset)
  stream := nestedPairs (sameKey leftIndex rightIndex) left.stream right.stream
  restarts := restarts_naiveEquijoin left.restarts right.restarts
  staysEmpty := staysEmpty_coroutineOperator

end Relation

/-- The operator at the root of a tree, built over those of its children. -/
def OperatorTree.operator : {ts : List Type} → OperatorTree ts → Relation (Tuple ts)
  | _, .iterator xs => Relation.iterator xs
  | _, .empty => Relation.empty _
  | _, .map child f => child.operator.map f
  | _, .filter child p => child.operator.filter p
  | _, .cross left right => left.operator.cross right.operator
  | _, @OperatorTree.naiveEquijoin _ _ _ _ left right leftIndex rightIndex =>
      left.operator.naiveEquijoin right.operator leftIndex rightIndex

/-- The stream of a tree is the list that it denotes. -/
theorem stream_operator {ts : List Type} (t : OperatorTree ts) :
    t.operator.stream = t.denote := by
  induction t with
  | iterator xs => rfl
  | empty => rfl
  | map child f ih => exact congrArg (List.map f) ih
  | filter child p ih => exact congrArg (List.filter p) ih
  | cross left right ihl ihr =>
      simp only [OperatorTree.operator, OperatorTree.denote, Relation.cross, nestedPairs, ihl,
        ihr, List.filter_true]
  | naiveEquijoin left right leftIndex rightIndex ihl ihr =>
      simp only [OperatorTree.operator, OperatorTree.denote, Relation.naiveEquijoin,
        nestedPairs, ihl, ihr]
      rfl

/-- **Relational operators compute their relational meaning.** For every tree and every
history of calls of `next` and `reset` on its root: after one more reset the calls of `next`
return the list that the tree denotes, element by element, and then nothing. -/
theorem operator_denote {ts : List Type} (t : OperatorTree ts) (history : List OperatorCall)
    (n : ℕ) :
    t.operator.nthNext (t.operator.reset (t.operator.after history)) n = t.denote[n]? := by
  rw [t.operator.nthNext_reset, stream_operator]

end LatticeFlow
