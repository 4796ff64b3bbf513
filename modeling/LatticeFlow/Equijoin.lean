import LatticeFlow.Operator

/-!
# Coroutine Operators and the Naive Equijoin

`CoroutineOperator` of `flow/coroutine_operator.h` turns a function that yields tuples
into an operator. Its coroutine runs ahead to the next `yield`, so that the operator holds
the tuple it returns next together with the suspended function.

`NaiveEquijoin` of `flow/naive_equijoin.h` is such an operator over two children. Its body
`YieldNext` is a nested loop; suspended, it is in its inner loop, and the loop variable of
the outer loop is part of the suspended state (`JoinPc`). The body is total because its
children are finite.

Tuples have one component for each type of a list. A column is a position of that list
together with its type, as `std::get` has it.

## Main results

* `CoroutineOperator.yields_start`: the operator delivers what its coroutine yields.
* `restarts_naiveEquijoin`: over children that restart two streams, the join restarts the
  matching pairs of the nested loop.
-/

namespace LatticeFlow

/-! ### Tuples -/

/-- `std::tuple<Ts...>`. -/
def Tuple : List Type → Type
  | [] => Unit
  | t :: ts => t × Tuple ts

/-- `std::tuple_cat` of two tuples. -/
def tupleCat : {ts us : List Type} → Tuple ts → Tuple us → Tuple (ts ++ us)
  | [], _, _, r => r
  | _ :: _, _, (x, l), r => (x, tupleCat l r)

/-- A position of a list of types, with the type `K` there. -/
inductive Column (K : Type) : List Type → Type 1
  | head {ts : List Type} : Column K (K :: ts)
  | tail {t : Type} {ts : List Type} : Column K ts → Column K (t :: ts)

/-- `std::get<Index>`. -/
def Column.get {K : Type} : {ts : List Type} → Column K ts → Tuple ts → K
  | _, .head, (x, _) => x
  | _, .tail c, (_, xs) => c.get xs

/-! ### Coroutines -/

/-- A coroutine: `resume` runs its function from a suspended state to the next `yield`, or
to its end. -/
structure Coroutine (α : Type) where
  Frame : Type
  resume : Frame → Option α × Frame

/-- The function yields the elements of the list one after another, and then ends. -/
def Coroutine.Yields {α : Type} (body : Coroutine α) : body.Frame → List α → Prop
  | f, [] => (body.resume f).1 = none
  | f, x :: xs => (body.resume f).1 = some x ∧ body.Yields (body.resume f).2 xs

/-- The state of a `CoroutineOperator`: what `coroutine_iterator_` points to, nothing at
the end, and the suspended function. -/
structure CoroutineOperator {α : Type} (body : Coroutine α) where
  current : Option α
  frame : body.Frame

namespace CoroutineOperator

variable {α : Type} {body : Coroutine α}

/-- `coroutine_ = pull_type(...)`: the function runs to its first `yield`. -/
def start (frame : body.Frame) : CoroutineOperator body :=
  let r := body.resume frame
  ⟨r.1, r.2⟩

/-- `CoroutineOperator::next`. -/
def next (s : CoroutineOperator body) : Option α × CoroutineOperator body :=
  match s.current with
  | some p => (some p, start s.frame)
  | none => (none, s)

end CoroutineOperator

/-- The operator of a coroutine. `restart` is what an override of `reset` does before it
calls `CoroutineOperator::reset`, which starts the function anew. -/
def coroutineOperator {α : Type} (body : Coroutine α) (init : body.Frame)
    (restart : body.Frame → body.Frame) : Operator α where
  State := CoroutineOperator body
  init := CoroutineOperator.start init
  next := CoroutineOperator.next
  reset s := CoroutineOperator.start (restart s.frame)

/-- **The operator delivers what its coroutine yields.** -/
theorem yields_start {α : Type} {body : Coroutine α} {init : body.Frame}
    {restart : body.Frame → body.Frame} {frame : body.Frame} {xs : List α}
    (h : body.Yields frame xs) :
    (coroutineOperator body init restart).Yields (CoroutineOperator.start frame) xs := by
  induction xs generalizing frame with
  | nil =>
      have hnone : (CoroutineOperator.start frame).current = none := h
      simp [Operator.Yields, coroutineOperator, CoroutineOperator.next, hnone]
  | cons x xs ih =>
      have hsome : (CoroutineOperator.start frame).current = some x := h.1
      refine ⟨?_, ?_⟩
      · simp [coroutineOperator, CoroutineOperator.next, hsome]
      · have hnext : ((coroutineOperator body init restart).next
            (CoroutineOperator.start frame)).2 =
            CoroutineOperator.start (CoroutineOperator.start frame).frame := by
          simp [coroutineOperator, CoroutineOperator.next, hsome]
        rw [hnext]
        exact ih h.2

/-! ### Nested loops -/

/-- Where a nested loop over two operators is: before a call of `left_->next()`, or before
a call of `right_->next()` in the inner loop for `l`. -/
inductive JoinPc (L : Type)
  | outer
  | inner (l : L)

/-- Before `left_->next()` the body is closer to its end than before `right_->next()`. -/
def JoinPc.rank {L : Type} : JoinPc L → ℕ
  | .outer => 0
  | .inner _ => 1

/-- The suspended state of a nested loop, with the states of the children. -/
structure JoinFrame {L R : Type} (left : Operator L) (right : Operator R) where
  pc : JoinPc L
  leftState : left.State
  rightState : right.State

variable {ls rs : List Type}

set_option linter.unusedVariables false in
/-- A nested loop that yields the concatenations of the pairs it keeps, run to its next
`yield` or to its end. -/
def nestedLoop (left : FiniteOperator (Tuple ls)) (right : FiniteOperator (Tuple rs))
    (keep : Tuple ls → Tuple rs → Bool) (f : JoinFrame left.toOperator right.toOperator) :
    Option (Tuple (ls ++ rs)) × JoinFrame left.toOperator right.toOperator :=
  match hpc : f.pc with
  | .outer =>
      match hl : left.next f.leftState with
      | (none, leftState) => (none, { f with leftState := leftState })
      | (some l, leftState) =>
          nestedLoop left right keep { f with pc := .inner l, leftState := leftState }
  | .inner l =>
      match hr : right.next f.rightState with
      | (none, rightState) =>
          nestedLoop left right keep
            { f with pc := .outer, rightState := right.reset rightState }
      | (some r, rightState) =>
          if keep l r then (some (tupleCat l r), { f with rightState := rightState })
          else nestedLoop left right keep { f with rightState := rightState }
  termination_by
    (left.wellFounded.wrap f.leftState, f.pc.rank, right.wellFounded.wrap f.rightState)
  decreasing_by
    · exact Prod.Lex.left _ _ ⟨l, hl⟩
    · exact Prod.Lex.right _ (Prod.Lex.left _ _ (by simp [hpc, JoinPc.rank]))
    · rw [hpc]
      exact Prod.Lex.right _ (Prod.Lex.right _ ⟨r, hr⟩)

/-- The pairs that a nested loop over two lists keeps, in its order. -/
def nestedPairs (keep : Tuple ls → Tuple rs → Bool) (xs : List (Tuple ls))
    (ys : List (Tuple rs)) : List (Tuple (ls ++ rs)) :=
  xs.flatMap fun l => (ys.filter (keep l)).map (tupleCat l)

section NestedLoop

variable {left : FiniteOperator (Tuple ls)} {right : FiniteOperator (Tuple rs)}
  {keep : Tuple ls → Tuple rs → Bool} {lst : left.State} {rst : right.State}

/-- The coroutine of a nested loop. -/
def nestedLoopCoroutine (left : FiniteOperator (Tuple ls)) (right : FiniteOperator (Tuple rs))
    (keep : Tuple ls → Tuple rs → Bool) : Coroutine (Tuple (ls ++ rs)) where
  Frame := JoinFrame left.toOperator right.toOperator
  resume := nestedLoop left right keep

section Steps

variable {lst' : left.State} {rst' : right.State} {l : Tuple ls} {r : Tuple rs}

/-- The left child is exhausted. -/
theorem nestedLoop_outer_none (h : left.next lst = (none, lst')) :
    nestedLoop left right keep ⟨.outer, lst, rst⟩ = (none, ⟨.outer, lst', rst⟩) := by
  rw [nestedLoop]
  simp only
  split
  · rename_i heq
    rw [h] at heq
    cases heq
    rfl
  · rename_i heq
    rw [h] at heq
    cases heq

/-- The outer loop takes a tuple of the left child. -/
theorem nestedLoop_outer_some (h : left.next lst = (some l, lst')) :
    nestedLoop left right keep ⟨.outer, lst, rst⟩ =
      nestedLoop left right keep ⟨.inner l, lst', rst⟩ := by
  rw [nestedLoop]
  simp only
  split
  · rename_i heq
    rw [h] at heq
    cases heq
  · rename_i heq
    rw [h] at heq
    cases heq
    rfl

/-- The right child is exhausted and reset. -/
theorem nestedLoop_inner_none (h : right.next rst = (none, rst')) :
    nestedLoop left right keep ⟨.inner l, lst, rst⟩ =
      nestedLoop left right keep ⟨.outer, lst, right.reset rst'⟩ := by
  rw [nestedLoop]
  simp only
  split
  · rename_i heq
    rw [h] at heq
    cases heq
    rfl
  · rename_i heq
    rw [h] at heq
    cases heq

/-- The inner loop takes a tuple of the right child. -/
theorem nestedLoop_inner_some (h : right.next rst = (some r, rst')) :
    nestedLoop left right keep ⟨.inner l, lst, rst⟩ =
      if keep l r then (some (tupleCat l r), ⟨.inner l, lst, rst'⟩)
      else nestedLoop left right keep ⟨.inner l, lst, rst'⟩ := by
  rw [nestedLoop]
  simp only
  split
  · rename_i heq
    rw [h] at heq
    cases heq
  · rename_i heq
    rw [h] at heq
    cases heq
    rfl

end Steps

/-- What a suspended function yields depends on what it does next only. -/
theorem Coroutine.Yields.congr {α : Type} {body : Coroutine α} {f g : body.Frame} {xs : List α}
    (hfg : body.resume f = body.resume g) (h : body.Yields g xs) : body.Yields f xs := by
  cases xs with
  | nil =>
      rw [Coroutine.Yields, hfg]
      exact h
  | cons x xs =>
      rw [Coroutine.Yields, hfg]
      exact h

/-- **The inner loop** yields the matches of `l` in what the right child still delivers,
and then what the outer loop yields after the reset of the right child. -/
theorem yields_inner {ys : List (Tuple rs)} {out : List (Tuple (ls ++ rs))} {l : Tuple ls}
    (hout : ∀ rst', (nestedLoopCoroutine left right keep).Yields
      ⟨.outer, lst, right.reset rst'⟩ out)
    (hright : right.Yields rst ys) :
    (nestedLoopCoroutine left right keep).Yields ⟨.inner l, lst, rst⟩
      ((ys.filter (keep l)).map (tupleCat l) ++ out) := by
  induction ys generalizing rst with
  | nil =>
      obtain ⟨rst', hnext⟩ : ∃ rst', right.next rst = (none, rst') := ⟨_, Prod.ext hright rfl⟩
      exact Coroutine.Yields.congr (nestedLoop_inner_none hnext) (hout rst')
  | cons r ys ih =>
      obtain ⟨rst', hnext⟩ : ∃ rst', right.next rst = (some r, rst') := ⟨_, Prod.ext hright.1 rfl⟩
      have hrest := hright.2
      rw [hnext] at hrest
      have hresume : (nestedLoopCoroutine left right keep).resume ⟨.inner l, lst, rst⟩ =
          if keep l r then (some (tupleCat l r), ⟨.inner l, lst, rst'⟩)
          else (nestedLoopCoroutine left right keep).resume ⟨.inner l, lst, rst'⟩ :=
        nestedLoop_inner_some hnext
      by_cases hkeep : keep l r = true
      · rw [if_pos hkeep] at hresume
        rw [List.filter_cons_of_pos hkeep, List.map_cons, List.cons_append]
        refine ⟨by rw [hresume], ?_⟩
        rw [hresume]
        exact ih hrest
      · rw [if_neg hkeep] at hresume
        rw [List.filter_cons_of_neg hkeep]
        exact Coroutine.Yields.congr hresume (ih hrest)

/-- **The outer loop** yields the kept pairs of what the left child still delivers with
what the right child restarts. -/
theorem yields_outer {xs : List (Tuple ls)} {ys : List (Tuple rs)}
    (hreset : ∀ rst, right.Yields (right.reset rst) ys) (hleft : left.Yields lst xs)
    (hright : right.Yields rst ys) :
    (nestedLoopCoroutine left right keep).Yields ⟨.outer, lst, rst⟩
      (nestedPairs keep xs ys) := by
  induction xs generalizing lst rst with
  | nil =>
      obtain ⟨lst', hnext⟩ : ∃ lst', left.next lst = (none, lst') := ⟨_, Prod.ext hleft rfl⟩
      exact congrArg Prod.fst (nestedLoop_outer_none hnext)
  | cons l xs ih =>
      obtain ⟨lst', hnext⟩ : ∃ lst', left.next lst = (some l, lst') := ⟨_, Prod.ext hleft.1 rfl⟩
      have hrest := hleft.2
      rw [hnext] at hrest
      refine Coroutine.Yields.congr (nestedLoop_outer_some hnext) ?_
      exact yields_inner (fun rst' => ih hrest (hreset rst')) hright

/-- A join that resets its children before it starts its nested loop anew restarts the kept
pairs, if its children restart their streams. -/
theorem restarts_nestedLoop {xs : List (Tuple ls)} {ys : List (Tuple rs)}
    (hleft : left.Restarts xs) (hright : right.Restarts ys) :
    (coroutineOperator (nestedLoopCoroutine left right keep)
      ⟨.outer, left.reset left.init, right.reset right.init⟩
      fun f => ⟨.outer, left.reset f.leftState, right.reset f.rightState⟩).Restarts
        (nestedPairs keep xs ys) :=
  ⟨yields_start (yields_outer hright.reset (hleft.reset _) (hright.reset _)),
    fun _ => yields_start (yields_outer hright.reset (hleft.reset _) (hright.reset _))⟩

end NestedLoop

/-! ### NaiveEquijoin -/

variable {K : Type} [DecidableEq K]

/-- The test of `NaiveEquijoin::YieldNext`. -/
def sameKey (leftIndex : Column K ls) (rightIndex : Column K rs) (l : Tuple ls)
    (r : Tuple rs) : Bool :=
  leftIndex.get l = rightIndex.get r

/-- `NaiveEquijoin`: its `reset`, which the constructor calls too, resets both children
and starts `YieldNext` anew. -/
def naiveEquijoin (left : FiniteOperator (Tuple ls)) (right : FiniteOperator (Tuple rs))
    (leftIndex : Column K ls) (rightIndex : Column K rs) : Operator (Tuple (ls ++ rs)) :=
  coroutineOperator (nestedLoopCoroutine left right (sameKey leftIndex rightIndex))
    ⟨.outer, left.reset left.init, right.reset right.init⟩
    fun f => ⟨.outer, left.reset f.leftState, right.reset f.rightState⟩

/-- **The naive equijoin** over children that restart two streams restarts the matching
pairs in the order of the nested loop. -/
theorem restarts_naiveEquijoin {left : FiniteOperator (Tuple ls)}
    {right : FiniteOperator (Tuple rs)} {leftIndex : Column K ls} {rightIndex : Column K rs}
    {xs : List (Tuple ls)} {ys : List (Tuple rs)} (hleft : left.Restarts xs)
    (hright : right.Restarts ys) :
    (naiveEquijoin left right leftIndex rightIndex).Restarts
      (nestedPairs (sameKey leftIndex rightIndex) xs ys) :=
  restarts_nestedLoop hleft hright

end LatticeFlow
