import Mathlib.Data.Prod.Lex
import LatticeFlow.Join
import LatticeFlow.PushPull

/-!
# The Pull Join

`Join<Pull, Key, Left, Right>` of `pushpull/join.h`. A pull returns a pair from the back of
`buf_` if there is one. Otherwise it pulls one element from the side whose turn it is, stores
it, appends its pairs with the stored elements of the other side to `buf_`, and passes the
turn to the other side; an upstream that returns nothing ends the pull before that.

Both maps hold vectors of `Left`: a right element is converted when it is stored, and back
when it is read. Over one type both conversions are the identity (`pull`).

The two upstreams have a state in common, so that they may also be two ends of one thing. A
`logged` upstream appends what it returns to a log.

## Main results

* `PullJoinInv`: what the maps, the buffer and the pairs returned have to do with the elements
  pulled.
* `pull_join_eq_push`: the pairs returned and buffered are those of the push join.
* `pull_join_completes_iff`: when the pull join returns all pairs of two finite upstreams.
* `preservesRights_iff`: when right elements of a type of their own come out as they went in.
-/

namespace LatticeFlow

/-! ### Join<Pull> -/

/-- `Join<Pull, Key, Left, Right>`, without its functions and its upstreams. -/
structure JoinPull (Key Left Right : Type) where
  pull_left : Bool := true
  left_map_ : OrderedMap Key (List Left) := []
  right_map_ : OrderedMap Key (List Left) := []
  buf_ : List (Left × Right) := []

namespace JoinPull

section Pull

variable {Key Left Right S : Type} [LinearOrder Key] (toLeft : Right → Left)
  (toRight : Left → Right) (key_left : Left → Key) (key_right : Right → Key)

/-- `buf_.back()` and `buf_.pop_back()`, or nothing. -/
def popBack (s : JoinPull Key Left Right) : Option (Left × Right) × JoinPull Key Left Right :=
  match s.buf_.getLast? with
  | some back => (some back, { s with buf_ := s.buf_.dropLast })
  | none => (none, s)

/-- A left element has been pulled. -/
def leftPulled (s : JoinPull Key Left Right) (left_val : Left) : JoinPull Key Left Right :=
  let key := key_left left_val
  let left_map_ := pushBack s.left_map_ key left_val
  let (rights, right_map_) := subscript s.right_map_ key
  { pull_left := !s.pull_left
    left_map_ := left_map_
    right_map_ := right_map_
    buf_ := s.buf_ ++ rights.map fun right_val => (left_val, toRight right_val) }

/-- A right element has been pulled. -/
def rightPulled (s : JoinPull Key Left Right) (right_val : Right) : JoinPull Key Left Right :=
  let key := key_right right_val
  let right_map_ := pushBack s.right_map_ key (toLeft right_val)
  let (lefts, left_map_) := subscript s.left_map_ key
  { pull_left := !s.pull_left
    left_map_ := left_map_
    right_map_ := right_map_
    buf_ := s.buf_ ++ lefts.map fun left_val => (left_val, right_val) }

/-- `Join<Pull>::pull`, over two upstreams. -/
def pullWith (left : S → Option Left × S) (right : S → Option Right × S)
    (s : JoinPull Key Left Right × S) :
    Option (Left × Right) × (JoinPull Key Left Right × S) :=
  if 0 < s.1.buf_.length then
    let (pair, join) := s.1.popBack
    (pair, (join, s.2))
  else if s.1.pull_left then
    match left s.2 with
    | (some left_val, up) =>
        let (pair, join) := (s.1.leftPulled toRight key_left left_val).popBack
        (pair, (join, up))
    | (none, up) => (none, (s.1, up))
  else
    match right s.2 with
    | (some right_val, up) =>
        let (pair, join) := (s.1.rightPulled toLeft key_right right_val).popBack
        (pair, (join, up))
    | (none, up) => (none, (s.1, up))

end Pull

variable {Key T S : Type} [LinearOrder Key] (key_left key_right : T → Key)

/-- `Join<Pull, Key, T, T>::pull`. -/
def pull (left right : S → Option T × S) (s : JoinPull Key T T × S) :
    Option (T × T) × (JoinPull Key T T × S) :=
  pullWith id id key_left key_right left right s

end JoinPull

/-- An upstream that logs what it returns, on its side. -/
def logged {T S : Type} (side : T → JoinInput T) (upstream : S → Option T × S)
    (s : S × List (JoinInput T)) : Option T × (S × List (JoinInput T)) :=
  match upstream s.1 with
  | (some x, up) => (some x, (up, s.2 ++ [side x]))
  | (none, up) => (none, (up, s.2))

/-! ### One pull -/

section Step

variable {Key T S : Type} [LinearOrder Key] {key_left key_right : T → Key}
  {left right : S → Option T × S} {s : JoinPull Key T T} {up : S} {inputs : List (JoinInput T)}
  {out : List (T × T)}

/-- The element pulled, on the side whose turn it is. -/
def turn (pull_left : Bool) : T → JoinInput T :=
  if pull_left then .left else .right

/-- An element has been pulled: the push join is given it, and the pairs are buffered. -/
def JoinPull.pulled (key_left key_right : T → Key) (s : JoinPull Key T T) (x : JoinInput T) :
    JoinPull Key T T :=
  let r := JoinPush.push key_left key_right ⟨s.left_map_, s.right_map_⟩ x
  ⟨!s.pull_left, r.2.left_map_, r.2.right_map_, s.buf_ ++ r.1⟩

/-- **One pull** returns a buffered pair, gets nothing from the upstream whose turn it is, or
gets an element from it. -/
theorem pull_cases (key_left key_right : T → Key) (left right : S → Option T × S)
    (s : JoinPull Key T T) (up : S) (inputs : List (JoinInput T)) :
    (∃ init p, s.buf_ = init ++ [p] ∧
      JoinPull.pull key_left key_right (logged .left left) (logged .right right)
        (s, (up, inputs)) = (some p, ({ s with buf_ := init }, (up, inputs)))) ∨
    (s.buf_ = [] ∧ ∃ up', (if s.pull_left then left up else right up) = (none, up') ∧
      JoinPull.pull key_left key_right (logged .left left) (logged .right right)
        (s, (up, inputs)) = (none, (s, (up', inputs)))) ∨
    (s.buf_ = [] ∧ ∃ x up', (if s.pull_left then left up else right up) = (some x, up') ∧
      JoinPull.pull key_left key_right (logged .left left) (logged .right right)
        (s, (up, inputs)) =
          let r := (s.pulled key_left key_right (turn s.pull_left x)).popBack
          (r.1, (r.2, (up', inputs ++ [turn s.pull_left x])))) := by
  rcases List.eq_nil_or_concat s.buf_ with hbuf | ⟨init, p, hbuf⟩
  · refine .inr ?_
    simp only [JoinPull.pull, JoinPull.pullWith, hbuf, List.length_nil, Nat.lt_irrefl, if_false,
      true_and]
    cases hturn : s.pull_left with
    | true =>
        simp only [if_true, logged]
        rcases left up with ⟨x, up'⟩
        cases x with
        | none => exact .inl ⟨up', rfl, rfl⟩
        | some x => exact .inr ⟨x, up', rfl, rfl⟩
    | false =>
        simp only [Bool.false_eq_true, if_false, logged]
        rcases right up with ⟨x, up'⟩
        cases x with
        | none => exact .inl ⟨up', rfl, rfl⟩
        | some x => exact .inr ⟨x, up', rfl, rfl⟩
  · refine .inl ⟨init, p, by rw [hbuf, List.concat_eq_append], ?_⟩
    simp [JoinPull.pull, JoinPull.pullWith, JoinPull.popBack, hbuf]

omit [LinearOrder Key] in
/-- What is popped from the buffer was in it. -/
theorem popBack_perm {Left Right : Type} (s : JoinPull Key Left Right) :
    (s.popBack.1.toList ++ s.popBack.2.buf_).Perm s.buf_ ∧
      s.popBack.2 = { s with buf_ := s.popBack.2.buf_ } := by
  rcases List.eq_nil_or_concat s.buf_ with hbuf | ⟨init, p, hbuf⟩
  · simp only [JoinPull.popBack, hbuf, List.getLast?_nil]
    exact ⟨List.Perm.refl _, hbuf ▸ rfl⟩
  · simp only [JoinPull.popBack, hbuf, List.concat_eq_append, List.getLast?_concat,
      List.dropLast_concat, Option.toList_some, and_true]
    exact (List.perm_append_singleton p init).symm

/-- **The invariant.** The maps hold the elements pulled, the pairs returned and buffered are
those of the elements pulled, and the sides take turns. -/
structure PullJoinInv (key_left key_right : T → Key) (s : JoinPull Key T T)
    (inputs : List (JoinInput T)) (out : List (T × T)) : Prop where
  left : HoldsByKey key_left s.left_map_ (lefts inputs)
  right : HoldsByKey key_right s.right_map_ (rights inputs)
  pairs : ((out ++ s.buf_ : List (T × T)) : Multiset (T × T)) =
    equijoin key_left key_right (lefts inputs : Multiset T) (rights inputs)
  turns : (lefts inputs).length = (rights inputs).length + if s.pull_left then 0 else 1

/-- At the beginning nothing has been pulled. -/
theorem PullJoinInv.init : PullJoinInv key_left key_right ({} : JoinPull Key T T) [] [] where
  left _ := rfl
  right _ := rfl
  pairs := by simp [lefts, rights, equijoin]
  turns := rfl

/-- The elements of the left side, over two parts. -/
theorem lefts_append (xs ys : List (JoinInput T)) : lefts (xs ++ ys) = lefts xs ++ lefts ys := by
  induction xs with
  | nil => rfl
  | cons x xs ih => rw [List.cons_append, lefts_cons, ih, lefts_cons x xs, List.append_assoc]

/-- The elements of the right side, over two parts. -/
theorem rights_append (xs ys : List (JoinInput T)) :
    rights (xs ++ ys) = rights xs ++ rights ys := by
  induction xs with
  | nil => rfl
  | cons x xs ih => rw [List.cons_append, rights_cons, ih, rights_cons x xs, List.append_assoc]

/-- An element is pulled. -/
theorem PullJoinInv.pulled (h : PullJoinInv key_left key_right s inputs out) (x : T) :
    PullJoinInv key_left key_right (s.pulled key_left key_right (turn s.pull_left x))
      (inputs ++ [turn s.pull_left x]) out := by
  obtain ⟨hpush, hl, hr⟩ := coe_push (s := ⟨s.left_map_, s.right_map_⟩) h.left h.right
    (turn s.pull_left x)
  rw [← lefts_append, ← rights_append] at hpush
  rw [← lefts_append] at hl
  rw [← rights_append] at hr
  refine ⟨hl, hr, ?_, ?_⟩
  · rw [hpush, ← h.pairs, Multiset.coe_add, List.append_assoc]
    rfl
  · have hturns := h.turns
    rw [lefts_append, rights_append, List.length_append, List.length_append]
    cases hturn : s.pull_left with
    | true => simpa [turn, JoinPull.pulled, hturn, lefts, rights] using hturns
    | false => simpa [turn, JoinPull.pulled, hturn, lefts, rights] using hturns

/-- A pair of the buffer is returned. -/
theorem PullJoinInv.popBack (h : PullJoinInv key_left key_right s inputs out) :
    PullJoinInv key_left key_right s.popBack.2 inputs (out ++ s.popBack.1.toList) := by
  obtain ⟨hperm, heq⟩ := popBack_perm s
  rw [heq]
  refine ⟨h.left, h.right, ?_, h.turns⟩
  rw [← h.pairs, List.append_assoc]
  exact Multiset.coe_eq_coe.mpr (hperm.append_left out)

/-- **One pull** keeps the invariant. -/
theorem PullJoinInv.pull (h : PullJoinInv key_left key_right s inputs out) (up : S) :
    let r := JoinPull.pull key_left key_right (logged .left left) (logged .right right)
      (s, (up, inputs))
    PullJoinInv key_left key_right r.2.1 r.2.2.2 (out ++ r.1.toList) := by
  obtain ⟨init, p, hbuf, hpull⟩ | ⟨-, up', -, hpull⟩ | ⟨-, x, up', -, hpull⟩ :=
    pull_cases key_left key_right left right s up inputs
  · rw [hpull]
    have hpop := h.popBack
    simpa [JoinPull.popBack, hbuf] using hpop
  · rw [hpull]
    simpa using h
  · rw [hpull]
    exact (h.pulled x).popBack

end Step

/-! ### The pairs returned -/

section Run

variable {Key T S : Type} [LinearOrder Key] (key_left key_right : T → Key)

/-- So many pulls of a new join, over two upstreams that log what they return. -/
def pulls (left right : S → Option T × S) (up : S) (n : ℕ) :
    List (Option (T × T)) × (JoinPull Key T T × (S × List (JoinInput T))) :=
  asks (JoinPull.pull key_left key_right (logged .left left) (logged .right right)) n
    ({}, (up, []))

/-- The pairs that have been returned, and those that are in the buffer. -/
def pulledPairs (left right : S → Option T × S) (up : S) (n : ℕ) : List (T × T) :=
  let r := pulls key_left key_right left right up n
  r.1.reduceOption ++ r.2.1.buf_

/-- The elements that the upstreams have returned. -/
def pulledInputs (left right : S → Option T × S) (up : S) (n : ℕ) : List (JoinInput T) :=
  (pulls key_left key_right left right up n).2.2.2

/-- **After any number of pulls.** -/
theorem pullJoinInv_pulls (left right : S → Option T × S) (up : S) (n : ℕ) :
    PullJoinInv key_left key_right (pulls key_left key_right left right up n).2.1
      (pulls key_left key_right left right up n).2.2.2
      (pulls key_left key_right left right up n).1.reduceOption := by
  have hrun := asks_invariant
    (JoinPull.pull key_left key_right (logged .left left) (logged .right right))
    (I := fun s out => PullJoinInv key_left key_right s.1 s.2.2 out)
    (fun s _ h => h.pull s.2.1) n ({}, (up, [])) [] PullJoinInv.init
  exact hrun

/-- **The pull join neither loses, invents nor duplicates pairs.** Over any two upstreams,
after any number of pulls, the pairs returned together with those in the buffer are the pairs
of a left and a right element pulled so far with equal keys, once for each pair of pulled
occurrences; and these are the pairs that the push join pushes downstream when it is given
the same elements. -/
theorem pull_join_eq_push (left right : S → Option T × S) (up : S) (n : ℕ) :
    (pulledPairs key_left key_right left right up n : Multiset (T × T)) =
        equijoin key_left key_right (lefts (pulledInputs key_left key_right left right up n))
          (rights (pulledInputs key_left key_right left right up n)) ∧
      (pulledPairs key_left key_right left right up n : Multiset (T × T)) =
        (({} : JoinPush Key T).pushAll key_left key_right
          (pulledInputs key_left key_right left right up n)).1 := by
  have hpairs := (pullJoinInv_pulls key_left key_right left right up n).pairs
  refine ⟨hpairs, ?_⟩
  rw [coe_pushAll]
  exact hpairs

end Run

/-! ### Finite upstreams -/

section Finite

variable {Key T : Type} [LinearOrder Key] (key_left key_right : T → Key)

/-- What is left of two finite upstreams. -/
abbrev Sources (T : Type) := List (Option T) × List (Option T)

/-- The left one of two finite upstreams. -/
def sourceLeft (s : Sources T) : Option T × Sources T :=
  ((sourcePull s.1).1, ((sourcePull s.1).2, s.2))

/-- The right one of two finite upstreams. -/
def sourceRight (s : Sources T) : Option T × Sources T :=
  ((sourcePull s.2).1, (s.1, (sourcePull s.2).2))

/-- After so many pulls no element is left in the upstreams, and every pair of a left and a
right element with equal keys has been returned, once. -/
def CompletesIn (ls rs : List (Option T)) (n : ℕ) : Prop :=
  let r := asks (JoinPull.pull key_left key_right sourceLeft sourceRight) n ({}, (ls, rs))
  r.2.2.1.reduceOption = [] ∧ r.2.2.2.reduceOption = [] ∧
    (r.1.reduceOption : Multiset (T × T)) =
      equijoin key_left key_right (ls.reduceOption : Multiset T) rs.reduceOption

variable {key_left key_right} {ls rs : List (Option T)}

/-- What has been pulled and what is left make up the upstreams. -/
structure SourceInv (ls rs : List (Option T)) (up : Sources T) (inputs : List (JoinInput T)) :
    Prop where
  left : lefts inputs ++ up.1.reduceOption = ls.reduceOption
  right : rights inputs ++ up.2.reduceOption = rs.reduceOption

/-- What is left, and then what is buffered. -/
def remaining (s : JoinPull Key T T × (Sources T × List (JoinInput T))) : ℕ ×ₗ ℕ :=
  toLex (s.2.1.1.length + s.2.1.2.length, s.1.buf_.length)

/-- Nothing is left and nothing is buffered. -/
def Finished (s : JoinPull Key T T × (Sources T × List (JoinInput T))) : Prop :=
  s.2.1.1.reduceOption = [] ∧ s.2.1.2.reduceOption = [] ∧ s.1.buf_ = []

/-- The logs do not change the answers. -/
theorem pull_forget (s : JoinPull Key T T × (Sources T × List (JoinInput T))) :
    JoinPull.pull key_left key_right sourceLeft sourceRight (s.1, s.2.1) =
      let r := JoinPull.pull key_left key_right (logged .left sourceLeft)
        (logged .right sourceRight) s
      (r.1, (r.2.1, r.2.2.1)) := by
  obtain ⟨s, up, inputs⟩ := s
  simp only [JoinPull.pull, JoinPull.pullWith]
  split_ifs
  · rfl
  · simp only [logged]
    rcases sourceLeft up with ⟨x, up'⟩
    cases x <;> rfl
  · simp only [logged]
    rcases sourceRight up with ⟨x, up'⟩
    cases x <;> rfl

omit [LinearOrder Key] in
/-- The upstream whose turn it is: what it returns is no longer left, and it gets shorter
unless it is at its end. -/
theorem source_turn (b : Bool) (up : Sources T) {o : Option T} {up' : Sources T}
    (h : (if b then sourceLeft up else sourceRight up) = (o, up')) :
    lefts (o.toList.map (turn b)) ++ up'.1.reduceOption = up.1.reduceOption ∧
      rights (o.toList.map (turn b)) ++ up'.2.reduceOption = up.2.reduceOption ∧
      (up'.1.length + up'.2.length < up.1.length + up.2.length ∨
        (if b then up.1 else up.2) = []) := by
  obtain ⟨ls, rs⟩ := up
  cases b with
  | true =>
      simp only [if_true, sourceLeft] at h ⊢
      obtain ⟨rfl, rfl⟩ := Prod.mk.inj h
      cases ls with
      | nil => exact ⟨rfl, rfl, .inr rfl⟩
      | cons x ls =>
          refine ⟨?_, ?_, .inl (by simp [sourcePull])⟩
          · cases x <;> simp [sourcePull, turn, lefts]
          · cases x <;> simp [sourcePull, turn, rights]
  | false =>
      simp only [Bool.false_eq_true, if_false, sourceRight] at h ⊢
      obtain ⟨rfl, rfl⟩ := Prod.mk.inj h
      cases rs with
      | nil => exact ⟨rfl, rfl, .inr rfl⟩
      | cons x rs =>
          refine ⟨?_, ?_, .inl (by simp [sourcePull])⟩
          · cases x <;> simp [sourcePull, turn, lefts]
          · cases x <;> simp [sourcePull, turn, rights]

/-- A pull takes the next answer of one of the two sources. -/
theorem SourceInv.pull {s : JoinPull Key T T} {up : Sources T} {inputs : List (JoinInput T)}
    (h : SourceInv ls rs up inputs) :
    let r := JoinPull.pull key_left key_right (logged .left sourceLeft) (logged .right sourceRight)
      (s, (up, inputs))
    SourceInv ls rs r.2.2.1 r.2.2.2 := by
  obtain ⟨init, p, hbuf, hpull⟩ | ⟨-, up', hup, hpull⟩ | ⟨-, x, up', hup, hpull⟩ :=
    pull_cases key_left key_right sourceLeft sourceRight s up inputs
  · rw [hpull]
    exact h
  · obtain ⟨hl, hr, -⟩ := source_turn s.pull_left up hup
    rw [hpull]
    exact ⟨by rw [← h.left, ← hl]; rfl, by rw [← h.right, ← hr]; rfl⟩
  · obtain ⟨hl, hr, -⟩ := source_turn s.pull_left up hup
    rw [hpull]
    refine ⟨?_, ?_⟩
    · rw [lefts_append, List.append_assoc, ← h.left, ← hl]
      rfl
    · rw [rights_append, List.append_assoc, ← h.right, ← hr]
      rfl

/-- If as many elements are to be pulled on both sides, or one more on the left, the upstream
whose turn it is comes to its end last. -/
theorem finished_of_end {s : JoinPull Key T T} {up : Sources T} {inputs : List (JoinInput T)}
    {out : List (T × T)} (hinv : PullJoinInv key_left key_right s inputs out)
    (hsource : SourceInv ls rs up inputs)
    (hlen : ls.reduceOption.length = rs.reduceOption.length ∨
      ls.reduceOption.length = rs.reduceOption.length + 1)
    (hend : (if s.pull_left then up.1 else up.2) = []) :
    up.1.reduceOption = [] ∧ up.2.reduceOption = [] := by
  have hturns := hinv.turns
  have hl := congrArg List.length hsource.left
  have hr := congrArg List.length hsource.right
  rw [List.length_append] at hl hr
  cases hturn : s.pull_left with
  | true =>
      simp only [hturn, if_true] at hturns hend
      rw [hend] at hl ⊢
      rw [List.reduceOption_nil, List.length_nil] at hl
      exact ⟨List.reduceOption_nil, List.length_eq_zero_iff.mp (by omega)⟩
  | false =>
      simp only [hturn, Bool.false_eq_true, if_false] at hturns hend
      rw [hend] at hr ⊢
      rw [List.reduceOption_nil, List.length_nil] at hr
      exact ⟨List.length_eq_zero_iff.mp (by omega), List.reduceOption_nil⟩

/-- **Progress**: a pull takes something from an upstream or from the buffer. -/
theorem remaining_pull {s : JoinPull Key T T} {up : Sources T} {inputs : List (JoinInput T)}
    {out : List (T × T)} (hinv : PullJoinInv key_left key_right s inputs out)
    (hsource : SourceInv ls rs up inputs)
    (hlen : ls.reduceOption.length = rs.reduceOption.length ∨
      ls.reduceOption.length = rs.reduceOption.length + 1)
    (hnot : ¬ Finished (s, (up, inputs))) :
    remaining (JoinPull.pull key_left key_right (logged .left sourceLeft)
      (logged .right sourceRight) (s, (up, inputs))).2 < remaining (s, (up, inputs)) := by
  have hshorter : ∀ {o : Option T} {up' : Sources T}, s.buf_ = [] →
      (if s.pull_left then sourceLeft up else sourceRight up) = (o, up') →
      up'.1.length + up'.2.length < up.1.length + up.2.length := by
    intro o up' hbuf hup
    refine (source_turn s.pull_left up hup).2.2.resolve_right fun hend => hnot ?_
    obtain ⟨hl, hr⟩ := finished_of_end hinv hsource hlen hend
    exact ⟨hl, hr, hbuf⟩
  obtain ⟨init, p, hbuf, hpull⟩ | ⟨hbuf, up', hup, hpull⟩ | ⟨hbuf, x, up', hup, hpull⟩ :=
    pull_cases key_left key_right sourceLeft sourceRight s up inputs
  · rw [hpull]
    exact Prod.Lex.toLex_lt_toLex.mpr (.inr ⟨rfl, by simp [hbuf]⟩)
  · rw [hpull]
    exact Prod.Lex.toLex_lt_toLex.mpr (.inl (hshorter hbuf hup))
  · rw [hpull]
    exact Prod.Lex.toLex_lt_toLex.mpr (.inl (hshorter hbuf hup))

/-- After any number of pulls, what they have got and what is left make up the sources. -/
theorem sourceInv_pulls (key_left key_right : T → Key) (ls rs : List (Option T)) (n : ℕ) :
    SourceInv ls rs (pulls key_left key_right sourceLeft sourceRight (ls, rs) n).2.2.1
      (pulls key_left key_right sourceLeft sourceRight (ls, rs) n).2.2.2 := by
  have hrun := asks_invariant
    (JoinPull.pull key_left key_right (logged .left sourceLeft) (logged .right sourceRight))
    (I := fun s _ => SourceInv ls rs s.2.1 s.2.2) (fun _ _ h => h.pull) n
    ({}, ((ls, rs), [])) [] ⟨rfl, rfl⟩
  exact hrun

/-- The same pulls without logs. -/
theorem asks_eq_pulls (n : ℕ) :
    asks (JoinPull.pull key_left key_right sourceLeft sourceRight) n ({}, (ls, rs)) =
      let r := pulls key_left key_right sourceLeft sourceRight (ls, rs) n
      (r.1, (r.2.1, r.2.2.1)) :=
  asks_hom (fun s : JoinPull Key T T × (Sources T × List (JoinInput T)) => (s.1, s.2.1))
    pull_forget n ({}, ((ls, rs), []))

/-- The sides take turns: both upstreams can be drained only if they have as many elements,
or the left one has one more. -/
theorem length_of_completesIn {n : ℕ} (h : CompletesIn key_left key_right ls rs n) :
    ls.reduceOption.length = rs.reduceOption.length ∨
      ls.reduceOption.length = rs.reduceOption.length + 1 := by
  simp only [CompletesIn, asks_eq_pulls] at h
  obtain ⟨hl, hr, -⟩ := h
  have hsource := sourceInv_pulls key_left key_right ls rs n
  have hturns := (pullJoinInv_pulls key_left key_right sourceLeft sourceRight (ls, rs) n).turns
  rw [← hsource.left, ← hsource.right, hl, hr, List.append_nil, List.append_nil, hturns]
  split_ifs
  · exact .inl rfl
  · exact .inr rfl

/-- When it has finished the join has returned all pairs. -/
theorem completesIn_of_finished {n : ℕ}
    (h : Finished (pulls key_left key_right sourceLeft sourceRight (ls, rs) n).2) :
    CompletesIn key_left key_right ls rs n := by
  obtain ⟨hl, hr, hbuf⟩ := h
  have hsource := sourceInv_pulls key_left key_right ls rs n
  have hpairs := (pullJoinInv_pulls key_left key_right sourceLeft sourceRight (ls, rs) n).pairs
  simp only [CompletesIn, asks_eq_pulls]
  refine ⟨hl, hr, ?_⟩
  rw [hbuf, List.append_nil] at hpairs
  rw [hpairs, ← hsource.left, ← hsource.right, hl, hr, List.append_nil, List.append_nil]

/-- **When the pull join completes.** Over two finite upstreams, with holes anywhere, some
number of pulls drains both and returns every pair of a left and a right element with equal
keys, once, if and only if the upstreams have as many elements, or the left one has one more:
an upstream that has come to its end keeps its turn. -/
theorem pull_join_completes_iff (key_left key_right : T → Key) (ls rs : List (Option T)) :
    (∃ n, CompletesIn key_left key_right ls rs n) ↔
      ls.reduceOption.length = rs.reduceOption.length ∨
        ls.reduceOption.length = rs.reduceOption.length + 1 := by
  constructor
  · rintro ⟨n, hn⟩
    exact length_of_completesIn hn
  · intro hlen
    obtain ⟨n, hn⟩ := exists_asks
      (JoinPull.pull key_left key_right (logged .left sourceLeft) (logged .right sourceRight))
      (I := fun s => SourceInv ls rs s.2.1 s.2.2 ∧
        ∃ out, PullJoinInv key_left key_right s.1 s.2.2 out)
      Finished remaining
      (fun s h => ⟨h.1.pull, h.2.elim fun _ hinv => ⟨_, hinv.pull s.2.1⟩⟩)
      (fun s h hnot => h.2.elim fun _ hinv => remaining_pull hinv h.1 hlen hnot)
      (s := ({}, ((ls, rs), []))) ⟨⟨rfl, rfl⟩, [], PullJoinInv.init⟩
    exact ⟨n, completesIn_of_finished hn⟩

/-- One left element and two right elements, of which the second one has its key: there is a
pair to be returned, but no number of pulls completes. -/
theorem longer_right_is_not_read :
    equijoin id id ({1} : Multiset ℕ) {2, 1} = {(1, 1)} ∧
      ¬ ∃ n, CompletesIn (id : ℕ → ℕ) id [some 1] [some 2, some 1] n := by
  refine ⟨by decide, ?_⟩
  rintro ⟨n, hn⟩
  exact absurd (length_of_completesIn hn) (by decide)

end Finite

/-! ### Two types -/

section TwoTypes

variable {Key Left Right S : Type} [LinearOrder Key] {toLeft : Right → Left}
  {toRight : Left → Right} {key_left : Left → Key} {key_right : Right → Key}
  {s : JoinPull Key Left Right} {rs : List Right} {out : List (Left × Right)}

/-- The left upstream beside a log of the right elements. -/
def besideLog (left : S → Option Left × S) (s : S × List Right) :
    Option Left × (S × List Right) :=
  ((left s.1).1, ((left s.1).2, s.2))

/-- The right upstream, with a log of the elements it returns. -/
def loggedRight (right : S → Option Right × S) (s : S × List Right) :
    Option Right × (S × List Right) :=
  ((right s.1).1, ((right s.1).2, s.2 ++ (right s.1).1.toList))

/-- Over all upstreams and after any number of pulls, the right component of every pair
returned is a right element as it was pulled. -/
def PreservesRights (toLeft : Right → Left) (toRight : Left → Right) (key_left : Left → Key)
    (key_right : Right → Key) : Prop :=
  ∀ (S : Type) (left : S → Option Left × S) (right : S → Option Right × S) (up : S) (n : ℕ),
    let r := asks (JoinPull.pullWith toLeft toRight key_left key_right (besideLog left)
      (loggedRight right)) n ({}, (up, []))
    ∀ p ∈ r.1.reduceOption, p.2 ∈ r.2.2.2

/-- What the right map holds are right elements pulled, converted; and the pairs returned and
buffered have right elements pulled. -/
structure RightsInv (toLeft : Right → Left) (key_right : Right → Key)
    (s : JoinPull Key Left Right) (rs : List Right) (out : List (Left × Right)) : Prop where
  stored : ∀ k, ∀ x ∈ (s.right_map_.find OrderedMap.less k).getD [],
    ∃ r ∈ rs, key_right r = k ∧ toLeft r = x
  pairs : ∀ p ∈ out ++ s.buf_, p.2 ∈ rs

/-- At the beginning no element has been stored. -/
theorem RightsInv.init :
    RightsInv toLeft key_right ({} : JoinPull Key Left Right) [] [] where
  stored _ _ hx := absurd hx List.not_mem_nil
  pairs _ hp := absurd hp List.not_mem_nil

/-- A left element meets stored right elements with its key, which are converted back. -/
theorem RightsInv.leftPulled (h : RightsInv toLeft key_right s rs out)
    (hconv : ∀ l r, key_left l = key_right r → toRight (toLeft r) = r) (l : Left) :
    RightsInv toLeft key_right (s.leftPulled toRight key_left l) rs out where
  stored k x hx := by
    refine h.stored k x ?_
    simp only [JoinPull.leftPulled, subscript, OrderedMap.find_update] at hx
    split_ifs at hx with hk
    · subst hk
      exact hx
    · exact hx
  pairs p hp := by
    simp only [JoinPull.leftPulled, subscript, ← List.append_assoc] at hp
    rcases List.mem_append.mp hp with hp | hp
    · exact h.pairs p hp
    · obtain ⟨x, hx, rfl⟩ := List.mem_map.mp hp
      obtain ⟨r, hr, hkey, rfl⟩ := h.stored (key_left l) x hx
      simpa only [hconv l r hkey.symm] using hr

/-- A right element is stored and meets stored left elements. -/
theorem RightsInv.rightPulled (h : RightsInv toLeft key_right s rs out) (r : Right) :
    RightsInv toLeft key_right (s.rightPulled toLeft key_right r) (rs ++ [r]) out where
  stored k x hx := by
    simp only [JoinPull.rightPulled, pushBack, OrderedMap.find_update] at hx
    split_ifs at hx with hk
    · rcases List.mem_append.mp hx with hx | hx
      · obtain ⟨r', hr', hkey, rfl⟩ := h.stored _ x hx
        exact ⟨r', List.mem_append_left _ hr', hkey.trans hk.symm, rfl⟩
      · exact ⟨r, List.mem_concat_self, hk.symm, (List.mem_singleton.mp hx).symm⟩
    · obtain ⟨r', hr', hkey, rfl⟩ := h.stored k x hx
      exact ⟨r', List.mem_append_left _ hr', hkey, rfl⟩
  pairs p hp := by
    simp only [JoinPull.rightPulled, ← List.append_assoc] at hp
    rcases List.mem_append.mp hp with hp | hp
    · exact List.mem_append_left _ (h.pairs p hp)
    · obtain ⟨l, -, rfl⟩ := List.mem_map.mp hp
      exact List.mem_concat_self

/-- A pull hands out one of the pairs kept. -/
theorem RightsInv.popBack (h : RightsInv toLeft key_right s rs out) :
    RightsInv toLeft key_right s.popBack.2 rs (out ++ s.popBack.1.toList) := by
  obtain ⟨hperm, heq⟩ := popBack_perm s
  refine ⟨?_, fun p hp => h.pairs p ?_⟩
  · rw [heq]
    exact h.stored
  · rw [List.append_assoc] at hp
    exact (hperm.append_left out).mem_iff.mp hp

/-- **One pull** keeps the invariant. -/
theorem RightsInv.pull (hconv : ∀ l r, key_left l = key_right r → toRight (toLeft r) = r)
    {left : S → Option Left × S} {right : S → Option Right × S} {up : S}
    (h : RightsInv toLeft key_right s rs out) :
    let r := JoinPull.pullWith toLeft toRight key_left key_right (besideLog left)
      (loggedRight right) (s, (up, rs))
    RightsInv toLeft key_right r.2.1 r.2.2.2 (out ++ r.1.toList) := by
  simp only [JoinPull.pullWith, besideLog, loggedRight]
  split_ifs with hbuf hturn
  · exact h.popBack
  · rcases left up with ⟨_ | l, up'⟩
    · simpa using h
    · exact (h.leftPulled hconv l).popBack
  · rcases right up with ⟨_ | r, up'⟩
    · simpa using h
    · exact (h.rightPulled r).popBack

/-- **When right values are preserved**: exactly if every right element that has the key of
some left element survives the conversion to the left type and back, which it undergoes
while it is stored. -/
theorem preservesRights_iff (toLeft : Right → Left) (toRight : Left → Right)
    (key_left : Left → Key) (key_right : Right → Key) :
    PreservesRights toLeft toRight key_left key_right ↔
      ∀ l r, key_left l = key_right r → toRight (toLeft r) = r := by
  constructor
  · intro h l r hkey
    -- The left element arrives twice, and finds the right element stored the second time.
    have hmem := h Unit (fun _ => (some l, ())) (fun _ => (some r, ())) () 3
      (l, toRight (toLeft r))
    simpa [asks, JoinPull.pullWith, besideLog, loggedRight, JoinPull.leftPulled,
      JoinPull.rightPulled, JoinPull.popBack, subscript, pushBack, OrderedMap.update,
      OrderedMap.find, OrderedMap.less, hkey, List.reduceOption] using hmem
  · intro hconv S left right up n
    have hrun := asks_invariant
      (JoinPull.pullWith toLeft toRight key_left key_right (besideLog left)
        (loggedRight right))
      (I := fun s out => RightsInv toLeft key_right s.1 s.2.2 out)
      (fun s _ h => h.pull hconv) n ({}, (up, [])) [] RightsInv.init
    intro r p hp
    exact hrun.pairs p (List.mem_append_left _ hp)

/-- `Join<Pull, int, unsigned char, unsigned>`: the right element `300` is returned as it is
when it arrives, and as `44` when a second left element finds it stored. -/
theorem stored_right_is_narrowed :
    let r := asks (JoinPull.pullWith UInt32.toUInt8 UInt8.toUInt32 (fun _ => (0 : ℤ))
      (fun _ => 0) (besideLog fun s : List UInt8 × List UInt32 => (s.1.head?, (s.1.tail, s.2)))
      (loggedRight fun s => (s.2.head?, (s.1, s.2.tail)))) 3 ({}, (([1, 2], [300]), []))
    r.1 = [none, some (1, 300), some (2, 44)] ∧ r.2.2.2 = [300] ∧
      ¬ PreservesRights UInt32.toUInt8 UInt8.toUInt32 (fun _ => (0 : ℤ)) (fun _ => 0) := by
  intro r
  have hout : r.1 = [none, some (1, 300), some (2, 44)] := by decide
  have hlog : r.2.2.2 = [300] := by decide
  refine ⟨hout, hlog, fun h => ?_⟩
  have hmem : (44 : UInt32) ∈ r.2.2.2 := h _ _ _ _ 3 (2, 44) (by decide)
  rw [hlog] at hmem
  exact absurd hmem (by decide)

end TwoTypes

end LatticeFlow
