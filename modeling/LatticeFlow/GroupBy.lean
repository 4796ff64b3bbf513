import Mathlib.Data.List.DropRight
import LatticeFlow.Lib.History
import LatticeFlow.PushPull

/-!
# GroupBy

Two versions of the relational GROUP BY. In `click/group_by.h` elements are pushed with their
group; in `pushpull/group_by.h` the group is computed from the element. Both collect the
elements of a group in a map, and hand them downstream when the group is ended.

They differ in what happens between the move of the elements out of the map and the end of
the call. `GroupBy<Push>` of `pushpull/` erases the entry and then pushes the elements
downstream. `GroupBy` of `click/` pushes first: the entry is still in the map, with the empty
vector that the move has left in it, and is erased when the downstream has returned. A
downstream that leads back into the `GroupBy` may have pushed elements into it by then.

A group is given as a type with a linear order, which is the `operator<` of the map.

## Main results

* `groupBy_returns_each_group_once`: both versions hand on the elements of each group once and
  in order, if the downstream does not call back.
* `click_cycle_loses_nothing_iff`: when `click`'s version loses nothing in a cycle.
* `pushpull_cycle_loses_nothing`: the other version never does.
-/

namespace LatticeFlow

open OrderedMap

/-- `groups_`. -/
abbrev Groups (Group From : Type) := OrderedMap Group (List From)

namespace GroupBy

variable {Group From T S : Type} [LinearOrder Group]

/-! ### click -/

/-- `GroupBy::push_call`. -/
def pushCall (groups_ : Groups Group From) (x : Group × From) : Groups Group From :=
  groups_.update less x.1 fun xs => xs.getD [] ++ [x.2]

/-- `GroupBy::end_call`, with a downstream that may call `push_call`. -/
def endCall (downstream : Groups Group From × S → Group × List From → Groups Group From × S)
    (s : Groups Group From × S) (group : Group) : Groups Group From × S :=
  match s.1.find less group with
  | none => downstream s (group, [])
  | some xs =>
      -- The vector is moved out of the entry at `it`, which stays.
      let s := (s.1.update less group fun _ => [], s.2)
      let s := downstream s (group, xs)
      (s.1.erase less group, s.2)

/-! ### pushpull -/

/-- `GroupBy<Push>::push_group`. -/
def pushGroup (group_ : T → Group) (groups_ : Groups Group T) (x : T) : Groups Group T :=
  let group := group_ x
  groups_.update less group fun xs => xs.getD [] ++ [x]

/-- `GroupBy<Push>::end_group`. -/
def endGroup (downstream : Groups Group T × S → Group × List T → Groups Group T × S)
    (s : Groups Group T × S) (group : Group) : Groups Group T × S :=
  -- `groups_[group]` makes an entry if there is none.
  let groups_ := s.1.update less group fun xs => xs.getD []
  let xs := (group, (groups_.find less group).getD [])
  let groups_ := groups_.update less group fun _ => []
  let groups_ := groups_.erase less group
  downstream (groups_, s.2) xs

end GroupBy

/-- A call from outside: an element is pushed, or a group is ended. -/
inductive GroupCall (Group X : Type)
  | push (x : X)
  | endGroup (group : Group)
  deriving DecidableEq, Repr

section Operators

variable (Group From : Type) {T : Type} {S : Type} [LinearOrder Group]

/-- A downstream that does not call back. -/
def withoutCycle {M β : Type} (downstream : S → β → S) (s : M × S) (p : β) : M × S :=
  (s.1, downstream s.2 p)

/-- `GroupBy` of `click/`. -/
def clickGroupBy : PushOperator (GroupCall Group (Group × From)) (Group × List From) where
  State := Groups Group From
  init := []
  push downstream s
    | .push x => (GroupBy.pushCall s.1 x, s.2)
    | .endGroup group => GroupBy.endCall (withoutCycle downstream) s group

variable {Group}

/-- `GroupBy<Push>` of `pushpull/`. -/
def groupByPush (group_ : T → Group) : PushOperator (GroupCall Group T) (Group × List T) where
  State := Groups Group T
  init := []
  push downstream s
    | .push x => (GroupBy.pushGroup group_ s.1 x, s.2)
    | .endGroup group => GroupBy.endGroup (withoutCycle downstream) s group

end Operators

/-! ### What is to be handed on -/

section Specification

variable {Group From T : Type} [DecidableEq Group]

/-- The element, if it is pushed for the group. -/
def GroupCall.pushedFor (g : Group) : GroupCall Group (Group × From) → Option From
  | .push (g', x) => if g' = g then some x else none
  | .endGroup _ => none

/-- The call does not end the group. -/
def GroupCall.leavesOpen {X : Type} (g : Group) : GroupCall Group X → Bool
  | .push _ => true
  | .endGroup g' => g' ≠ g

/-- The group that a call is about. -/
def GroupCall.group : GroupCall Group (Group × From) → Group
  | .push (g, _) => g
  | .endGroup g => g

/-- The elements that have been pushed for a group since it was ended last. -/
def sinceEnd (g : Group) (calls : List (GroupCall Group (Group × From))) : List From :=
  (calls.rtakeWhile (GroupCall.leavesOpen g)).filterMap (GroupCall.pushedFor g)

/-- What a call is to hand on after the given calls. -/
def handOn (calls : List (GroupCall Group (Group × From))) :
    GroupCall Group (Group × From) → List (Group × List From)
  | .push _ => []
  | .endGroup g => [(g, sinceEnd g calls)]

/-- The call, with the element given together with its group. -/
def GroupCall.annotate (group_ : T → Group) : GroupCall Group T → GroupCall Group (Group × T)
  | .push x => .push (group_ x, x)
  | .endGroup g => .endGroup g

/-- The elements that a sequence of pairs holds for a group, in order. -/
def handedOn (g : Group) (pairs : List (Group × List From)) : List From :=
  pairs.flatMap fun p => if p.1 = g then p.2 else []

/-- A push goes to the open group with its key. -/
theorem sinceEnd_push (g g' : Group) (x : From) (calls : List (GroupCall Group (Group × From))) :
    sinceEnd g (calls ++ [.push (g', x)]) = sinceEnd g calls ++ if g' = g then [x] else [] := by
  rw [sinceEnd, List.rtakeWhile_concat_pos _ _ _ rfl, List.filterMap_append]
  congr 1
  by_cases hg : g' = g
  · simp [GroupCall.pushedFor, hg]
  · simp [GroupCall.pushedFor, hg]

/-- The end of a group opens an empty one. -/
theorem sinceEnd_endGroup (g g' : Group) (calls : List (GroupCall Group (Group × From))) :
    sinceEnd g (calls ++ [.endGroup g']) = if g' = g then [] else sinceEnd g calls := by
  split_ifs with hg
  · rw [sinceEnd, List.rtakeWhile_concat_neg _ _ _ (by simp [GroupCall.leavesOpen, hg])]
    rfl
  · rw [sinceEnd, List.rtakeWhile_concat_pos _ _ _ (by simp [GroupCall.leavesOpen, hg]),
      List.filterMap_append]
    exact List.append_nil _

/-- Calls for other groups do not matter. -/
theorem sinceEnd_filter (g : Group) (calls : List (GroupCall Group (Group × From))) :
    sinceEnd g (calls.filter fun c => c.group = g) = sinceEnd g calls := by
  induction calls using List.reverseRecOn with
  | nil => rfl
  | append_singleton calls c ih =>
      rw [List.filter_append]
      by_cases hc : c.group = g
      · rw [List.filter_cons_of_pos (by simpa using hc), List.filter_nil]
        cases c with
        | push x => rw [sinceEnd_push, sinceEnd_push, ih]
        | endGroup g' => rw [sinceEnd_endGroup, sinceEnd_endGroup, ih]
      · rw [List.filter_cons_of_neg (by simpa using hc), List.filter_nil, List.append_nil, ih]
        cases c with
        | push x =>
            have hg : x.1 ≠ g := hc
            rw [sinceEnd_push, if_neg hg, List.append_nil]
        | endGroup g' =>
            have hg : g' ≠ g := hc
            rw [sinceEnd_endGroup, if_neg hg]

/-- What is handed on for a group is what is handed on by each part. -/
theorem handedOn_append (g : Group) (ps qs : List (Group × List From)) :
    handedOn g (ps ++ qs) = handedOn g ps ++ handedOn g qs :=
  List.flatMap_append

/-- What has been pushed for a group has been handed on, or was pushed since its end. -/
theorem filterMap_pushedFor (g : Group) (calls : List (GroupCall Group (Group × From))) :
    calls.filterMap (GroupCall.pushedFor g) =
      handedOn g (fromHistory handOn [] calls) ++ sinceEnd g calls := by
  induction calls using List.reverseRecOn with
  | nil => rfl
  | append_singleton calls c ih =>
      rw [List.filterMap_append, ih, fromHistory_concat, handedOn_append]
      cases c with
      | push x =>
          rw [sinceEnd_push]
          by_cases hg : x.1 = g
          · simp [GroupCall.pushedFor, handOn, handedOn, hg]
          · simp [GroupCall.pushedFor, handOn, handedOn, hg]
      | endGroup g' =>
          rw [sinceEnd_endGroup]
          by_cases hg : g' = g
          · simp [GroupCall.pushedFor, handOn, handedOn, hg]
          · simp [GroupCall.pushedFor, handOn, handedOn, hg]

end Specification

/-! ### Without a cycle -/

section Returns

variable {Group From T S : Type} [LinearOrder Group] {groups : Groups Group From}

/-- What is in the map for a group. -/
def pending (g : Group) (groups_ : Groups Group From) : List From :=
  (groups_.find less g).getD []

/-- `push_call` adds the element to its group, and to no other. -/
theorem pending_pushCall (g : Group) (x : Group × From) :
    pending g (GroupBy.pushCall groups x) =
      pending g groups ++ if x.1 = g then [x.2] else [] := by
  rw [pending, GroupBy.pushCall, find_update]
  by_cases hg : x.1 = g
  · subst hg
    simp [pending]
  · simp [pending, hg, Ne.symm hg]

/-- A group that has been erased is empty, and no other has changed. -/
theorem pending_erase (hm : Sorted groups) (g g' : Group) :
    pending g (groups.erase less g') = if g' = g then [] else pending g groups := by
  rw [pending, hm.find_erase]
  by_cases hg : g' = g
  · simp [hg]
  · simp [hg, Ne.symm hg, pending]

/-- Without a cycle, `end_call` hands on what is in the map for the group. -/
theorem endCall_withoutCycle (downstream : S → Group × List From → S)
    (groups : Groups Group From) (s : S) (g : Group) :
    ∃ groups', GroupBy.endCall (withoutCycle downstream) (groups, s) g =
        (groups', downstream s (g, pending g groups)) ∧
      (Sorted groups → Sorted groups' ∧
        ∀ j, pending j groups' = if g = j then [] else pending j groups) := by
  simp only [GroupBy.endCall, withoutCycle, pending]
  split
  · rename_i hfind
    refine ⟨groups, by rw [hfind]; rfl, fun hm => ⟨hm, fun j => ?_⟩⟩
    split_ifs with hj
    · rw [← hj, hfind]
      rfl
    · rfl
  · rename_i xs hfind
    refine ⟨groups.erase less g, by rw [hfind, erase_update]; rfl, fun hm => ?_⟩
    exact ⟨hm.erase g, fun j => pending_erase hm j g⟩

/-- Without a cycle, `end_group` does so too. -/
theorem endGroup_withoutCycle (downstream : S → Group × List From → S)
    (groups : Groups Group From) (s : S) (g : Group) :
    GroupBy.endGroup (withoutCycle downstream) (groups, s) g =
      (groups.erase less g, downstream s (g, pending g groups)) := by
  simp [GroupBy.endGroup, withoutCycle, erase_update, find_update, pending]

/-- The map holds what has been pushed for each group since its end. -/
structure GroupsInv (calls : List (GroupCall Group (Group × From))) (groups : Groups Group From) :
    Prop where
  sorted : Sorted groups
  pending : ∀ g, pending g groups = sinceEnd g calls

/-- At the beginning there are no groups. -/
theorem GroupsInv.init : GroupsInv ([] : List (GroupCall Group (Group × From))) [] :=
  ⟨sorted_nil, fun _ => rfl⟩

variable {calls : List (GroupCall Group (Group × From))}

/-- A push keeps the map in step with the calls. -/
theorem GroupsInv.push (h : GroupsInv calls groups) (x : Group × From) :
    GroupsInv (calls ++ [.push x]) (GroupBy.pushCall groups x) where
  sorted := h.sorted.update _ _
  pending g := by
    rw [pending_pushCall, h.pending, sinceEnd_push]

/-- So does the end of a group, whatever is done to the map, if only that group is empty then. -/
theorem GroupsInv.endGroup {groups' : Groups Group From} (h : GroupsInv calls groups) {g : Group}
    (hsorted : Sorted groups')
    (hpending : ∀ j, LatticeFlow.pending j groups' =
      if g = j then [] else LatticeFlow.pending j groups) :
    GroupsInv (calls ++ [.endGroup g]) groups' where
  sorted := hsorted
  pending j := by
    rw [hpending, sinceEnd_endGroup, h.pending]

/-- The `GroupBy` of `click/` hands on the open group at its end. -/
theorem remembers_clickGroupBy :
    (clickGroupBy Group From).Remembers handOn GroupsInv where
  init := .init
  step downstream before groups s c h := by
    cases c with
    | push x => exact ⟨_, rfl, h.push x⟩
    | endGroup g =>
        obtain ⟨groups', heq, hkept⟩ := endCall_withoutCycle downstream groups s g
        obtain ⟨hsorted, hpending⟩ := hkept h.sorted
        refine ⟨groups', ?_, h.endGroup hsorted hpending⟩
        rw [h.pending] at heq
        exact heq

/-- `GroupBy<Push>` does so for the groups of its elements. -/
theorem remembers_groupByPush (group_ : T → Group) :
    (groupByPush group_).Remembers (fun calls c =>
        handOn (calls.map (GroupCall.annotate group_)) (c.annotate group_))
      fun calls => GroupsInv (calls.map (GroupCall.annotate group_)) where
  init := .init
  step downstream before groups s c h := by
    rw [List.map_append]
    cases c with
    | push x => exact ⟨_, rfl, h.push (group_ x, x)⟩
    | endGroup g =>
        refine ⟨groups.erase less g, ?_, h.endGroup (h.sorted.erase g) (pending_erase h.sorted · g)⟩
        have heq := endGroup_withoutCycle downstream groups s g
        rw [h.pending] at heq
        exact heq

/-- Elements and groups may be given together. -/
theorem fromHistory_annotate (group_ : T → Group) (calls : List (GroupCall Group T)) :
    fromHistory (fun calls c =>
        handOn (calls.map (GroupCall.annotate group_)) (c.annotate group_)) [] calls =
      fromHistory handOn [] (calls.map (GroupCall.annotate group_)) := by
  induction calls using List.reverseRecOn with
  | nil => rfl
  | append_singleton calls c ih =>
      rw [List.map_append, fromHistory_concat, ih]
      exact (fromHistory_concat _ _ _).symm

/-- **Each group's elements are handed on once and in order**, by both versions. Every end of
a group hands on one pair: the group, and what has been pushed for it since it was ended
last. Calls for other groups have no influence on this, and what has been pushed for a group
has been handed on, or is yet to be. -/
theorem groupBy_returns_each_group_once (group_ : T → Group) :
    (clickGroupBy Group From).Pushes (fromHistory handOn []) ∧
      (groupByPush group_).Pushes
        (fun calls => fromHistory handOn [] (calls.map (GroupCall.annotate group_))) ∧
      (∀ g (calls : List (GroupCall Group (Group × From))),
        sinceEnd g (calls.filter fun c => c.group = g) = sinceEnd g calls) ∧
      ∀ g (calls : List (GroupCall Group (Group × From))),
        calls.filterMap (GroupCall.pushedFor g) =
          handedOn g (fromHistory handOn [] calls) ++ sinceEnd g calls := by
  refine ⟨remembers_clickGroupBy.pushes, ?_, sinceEnd_filter, filterMap_pushedFor⟩
  intro S downstream s calls
  rw [(remembers_groupByPush group_).pushes S downstream s calls, fromHistory_annotate]

end Returns

/-! ### In a cycle -/

/-- What happens at a `GroupBy` that is part of a cycle. -/
inductive GroupEvent (Group From : Type)
  | pushed (x : Group × From)
  | handedOn (p : Group × List From)
  deriving DecidableEq, Repr

section Cycle

variable {Group From X T S : Type} [LinearOrder Group]

/-- The state of a `GroupBy` in a cycle: the map, the downstream, and the log. -/
abbrev CycleState (Group From S : Type) := Groups Group From × (S × List (GroupEvent Group From))

/-- A downstream that pushes elements back into the `GroupBy`: which ones depends on its state
and on the pair that it has received. The events are logged, with the group of an element
given by `annotate`. -/
def pushingBack (push : Groups Group From → X → Groups Group From) (annotate : X → Group × From)
    (react : S → Group × List From → List X × S)
    (s : CycleState Group From S) (p : Group × List From) :
    CycleState Group From S :=
  let (groups_, (down, log)) := s
  let (back, down) := react down p
  (back.foldl push groups_, (down, log ++ .handedOn p :: back.map fun x => .pushed (annotate x)))

/-- A call of `click`'s `GroupBy` in a cycle. -/
def clickCycle (react : S → Group × List From → List (Group × From) × S)
    (s : CycleState Group From S) :
    GroupCall Group (Group × From) → CycleState Group From S
  | .push x => (GroupBy.pushCall s.1 x, (s.2.1, s.2.2 ++ [.pushed x]))
  | .endGroup g => GroupBy.endCall (pushingBack GroupBy.pushCall id react) s g

/-- Calls of a new `GroupBy` of `click/` in a cycle. -/
def clickRun (react : S → Group × List From → List (Group × From) × S) (down : S)
    (calls : List (GroupCall Group (Group × From))) : CycleState Group From S :=
  calls.foldl (clickCycle react) ([], (down, []))

/-- A call of `GroupBy<Push>` in a cycle. -/
def pushpullCycle (group_ : T → Group) (react : S → Group × List T → List T × S)
    (s : CycleState Group T S) :
    GroupCall Group T → CycleState Group T S
  | .push x => (GroupBy.pushGroup group_ s.1 x, (s.2.1, s.2.2 ++ [.pushed (group_ x, x)]))
  | .endGroup g =>
      GroupBy.endGroup (pushingBack (GroupBy.pushGroup group_) (fun x => (group_ x, x)) react) s g

/-- Calls of a new `GroupBy<Push>` in a cycle. -/
def pushpullRun (group_ : T → Group) (react : S → Group × List T → List T × S) (down : S)
    (calls : List (GroupCall Group T)) : CycleState Group T S :=
  calls.foldl (pushpullCycle group_ react) ([], (down, []))

/-- The elements that have been pushed for a group. -/
def pushedFor (g : Group) (log : List (GroupEvent Group From)) : List From :=
  log.flatMap fun
    | .pushed x => if x.1 = g then [x.2] else []
    | .handedOn _ => []

/-- The elements that have been handed on for a group. -/
def handedOnFor (g : Group) (log : List (GroupEvent Group From)) : List From :=
  log.flatMap fun
    | .pushed _ => []
    | .handedOn p => if p.1 = g then p.2 else []

/-- What has been handed on for a group, and what is in the map. -/
def accountedFor (g : Group) (s : CycleState Group From S) : List From :=
  handedOnFor g s.2.2 ++ pending g s.1

/-- Nothing is lost of a group: every element that has been pushed for it has been handed on
once or is in the map, in order. -/
def LosesNothing (g : Group) (s : CycleState Group From S) : Prop :=
  pushedFor g s.2.2 = accountedFor g s

/-- The call ends the group, which has an entry in the map, and the downstream pushes an
element of this group back. -/
def PushesIntoEnded (react : S → Group × List From → List (Group × From) × S) (g : Group)
    (s : CycleState Group From S) (c : GroupCall Group (Group × From)) : Prop :=
  c = .endGroup g ∧ ∃ xs, s.1.find less g = some xs ∧ ∃ x ∈ (react s.2.1 (g, xs)).1, x.1 = g

variable {react : S → Group × List From → List (Group × From) × S} {s : CycleState Group From S}

/-- What has been pushed for a group, over two parts of the log. -/
theorem pushedFor_append (g : Group) (l m : List (GroupEvent Group From)) :
    pushedFor g (l ++ m) = pushedFor g l ++ pushedFor g m :=
  List.flatMap_append

/-- What has been handed on for a group, over two parts of the log. -/
theorem handedOnFor_append (g : Group) (l m : List (GroupEvent Group From)) :
    handedOnFor g (l ++ m) = handedOnFor g l ++ handedOnFor g m :=
  List.flatMap_append

/-- Pushes hand on nothing. -/
theorem handedOnFor_pushed (g : Group) (xs : List (Group × From)) :
    handedOnFor g (xs.map .pushed) = [] := by
  simp [handedOnFor, List.flatMap_map]

/-- Nothing has been pushed for a group if all elements are of others. -/
theorem pushedFor_pushed_eq_nil {g : Group} {xs : List (Group × From)} :
    pushedFor g (xs.map .pushed) = [] ↔ ∀ x ∈ xs, x.1 ≠ g := by
  simp [pushedFor, List.flatMap_map]

/-- The events of the end of a group. -/
theorem pushedFor_handedOn (g : Group) (p : Group × List From)
    (l : List (GroupEvent Group From)) : pushedFor g (.handedOn p :: l) = pushedFor g l :=
  rfl

/-- A group handed on, and what its downstream pushes back then. -/
theorem handedOnFor_handedOn (g : Group) (p : Group × List From) (xs : List (Group × From)) :
    handedOnFor g (.handedOn p :: xs.map .pushed) = if p.1 = g then p.2 else [] := by
  have hpushed := handedOnFor_pushed g xs
  simp only [handedOnFor, List.flatMap_cons] at hpushed ⊢
  rw [hpushed, List.append_nil]

/-- Pushes keep the map sorted. -/
theorem sorted_foldl_pushCall (xs : List (Group × From)) {groups : Groups Group From}
    (hm : Sorted groups) : Sorted (xs.foldl GroupBy.pushCall groups) := by
  induction xs generalizing groups with
  | nil => exact hm
  | cons x xs ih => exact ih (hm.update _ _)

/-- Pushes one after another add to a group what they push for it. -/
theorem pending_foldl_pushCall (g : Group) (xs : List (Group × From))
    (groups : Groups Group From) :
    pending g (xs.foldl GroupBy.pushCall groups) =
      pending g groups ++ pushedFor g (xs.map .pushed) := by
  induction xs generalizing groups with
  | nil => exact (List.append_nil _).symm
  | cons x xs ih =>
      rw [List.foldl_cons, ih, pending_pushCall, List.append_assoc]
      rfl

/-- The elements of a group that the downstream pushes back when it receives a pair. -/
def backFor (annotate : X → Group × From) (react : S → Group × List From → List X × S) (g : Group)
    (down : S) (p : Group × List From) : List From :=
  pushedFor g (((react down p).1.map annotate).map .pushed)

/-- What a downstream that pushes back does to the map and to the log. -/
theorem pushingBack_spec (push : Groups Group From → X → Groups Group From)
    (annotate : X → Group × From)
    (hpush : ∀ groups x, push groups x = GroupBy.pushCall groups (annotate x))
    (react : S → Group × List From → List X × S) (s : CycleState Group From S)
    (p : Group × List From) (g : Group) :
    pushedFor g (pushingBack push annotate react s p).2.2 =
        pushedFor g s.2.2 ++ backFor annotate react g s.2.1 p ∧
      handedOnFor g (pushingBack push annotate react s p).2.2 =
        handedOnFor g s.2.2 ++ (if p.1 = g then p.2 else []) ∧
      pending g (pushingBack push annotate react s p).1 =
        pending g s.1 ++ backFor annotate react g s.2.1 p ∧
      (Sorted s.1 → Sorted (pushingBack push annotate react s p).1) := by
  have hfold : ∀ xs : List X, xs.foldl push s.1 = (xs.map annotate).foldl GroupBy.pushCall s.1 :=
    fun xs => by
      rw [List.foldl_map]
      congr
      exact funext₂ hpush
  have hlog : ∀ xs : List X, (xs.map fun x => GroupEvent.pushed (annotate x)) =
      (xs.map annotate).map .pushed := fun xs => by rw [List.map_map]; rfl
  simp only [pushingBack, hfold, hlog]
  refine ⟨?_, ?_, pending_foldl_pushCall g _ _, sorted_foldl_pushCall _⟩
  · rw [pushedFor_append, pushedFor_handedOn, backFor]
  · rw [handedOnFor_append, handedOnFor_handedOn]

/-- What one call does for a group: some elements are pushed, of which some are accounted for
afterwards. -/
structure Accounts (g : Group) (s s' : CycleState Group From S) (pushed kept : List From) :
    Prop where
  pushed : pushedFor g s'.2.2 = pushedFor g s.2.2 ++ pushed
  kept : accountedFor g s' = accountedFor g s ++ kept

/-- What a push does to the accounts of a group. -/
theorem accounts_push (g : Group) (x : Group × From) :
    Accounts g s (GroupBy.pushCall s.1 x, (s.2.1, s.2.2 ++ [.pushed x]))
      (if x.1 = g then [x.2] else []) (if x.1 = g then [x.2] else []) where
  pushed := by
    rw [pushedFor_append]
    simp [pushedFor]
  kept := by
    have hnone := handedOnFor_pushed g [x]
    simp only [accountedFor, pending_pushCall, handedOnFor_append, List.append_assoc]
    rw [List.map_singleton] at hnone
    rw [hnone, List.nil_append]

/-- The end of a group without an entry. -/
theorem accounts_endCall_none (g g' : Group) :
    Accounts g s (pushingBack GroupBy.pushCall id react s (g', []))
      (backFor id react g s.2.1 (g', [])) (backFor id react g s.2.1 (g', [])) := by
  obtain ⟨hpushed, hhanded, hpending, -⟩ :=
    pushingBack_spec GroupBy.pushCall id (fun _ _ => rfl) react s (g', []) g
  refine ⟨hpushed, ?_⟩
  rw [accountedFor, hhanded, hpending, ite_self, List.append_nil, accountedFor, List.append_assoc]

/-- The end of a group with an entry: if it is this group, nothing that is pushed back for it
is kept. -/
theorem accounts_endCall_some (hm : Sorted s.1) {g' : Group} {xs : List From}
    (hfind : s.1.find less g' = some xs) (g : Group) :
    let r := pushingBack GroupBy.pushCall id react (s.1.update less g' fun _ => [], s.2) (g', xs)
    Accounts g s (r.1.erase less g', r.2) (backFor id react g s.2.1 (g', xs))
      (if g' = g then [] else backFor id react g s.2.1 (g', xs)) := by
  obtain ⟨hpushed, hhanded, hpending, hsorted⟩ := pushingBack_spec GroupBy.pushCall id
    (fun _ _ => rfl) react (s.1.update less g' fun _ => [], s.2) (g', xs) g
  refine ⟨hpushed, ?_⟩
  simp only [accountedFor] at hhanded ⊢
  rw [hhanded, pending_erase (hsorted (hm.update _ _)), hpending]
  by_cases hg : g' = g
  · subst hg
    simp [pending, hfind]
  · simp [pending, find_update, hg, Ne.symm hg]

/-- The map is sorted after each call. -/
theorem sorted_clickCycle (hm : Sorted s.1) (c : GroupCall Group (Group × From)) :
    Sorted (clickCycle react s c).1 := by
  cases c with
  | push x => exact hm.update _ _
  | endGroup g =>
      simp only [clickCycle, GroupBy.endCall]
      split
      · exact sorted_foldl_pushCall _ hm
      · exact (sorted_foldl_pushCall _ (hm.update _ _)).erase g

/-- **One call of `click`'s version** keeps what is pushed for a group, unless it is pushed
while an entry of the group is being ended. -/
theorem accounts_clickCycle (react : S → Group × List From → List (Group × From) × S)
    (hm : Sorted s.1) (g : Group) (c : GroupCall Group (Group × From)) :
    ∃ pushed kept, Accounts g s (clickCycle react s c) pushed kept ∧
      (kept = pushed ∧ ¬ PushesIntoEnded react g s c ∨
        kept = [] ∧ pushed ≠ [] ∧ PushesIntoEnded react g s c) := by
  cases c with
  | push x => exact ⟨_, _, accounts_push g x, .inl ⟨rfl, fun h => by cases h.1⟩⟩
  | endGroup g' =>
      simp only [clickCycle, GroupBy.endCall]
      split
      · rename_i hfind
        refine ⟨_, _, accounts_endCall_none g g', .inl ⟨rfl, ?_⟩⟩
        rintro ⟨hg, xs, hxs, -⟩
        cases hg
        rw [hfind] at hxs
        cases hxs
      · rename_i xs hfind
        refine ⟨_, _, accounts_endCall_some hm hfind g, ?_⟩
        have hback : backFor id react g s.2.1 (g', xs) = [] ↔
            ∀ x ∈ (react s.2.1 (g', xs)).1, x.1 ≠ g := by
          rw [backFor, List.map_id, pushedFor_pushed_eq_nil]
        by_cases hlost : PushesIntoEnded react g s (.endGroup g')
        · obtain ⟨hg, xs', hxs', x, hx, hxg⟩ := hlost
          cases hg
          obtain rfl := Option.some.inj (hfind.symm.trans hxs')
          refine .inr ⟨if_pos rfl, fun hnil => hback.mp hnil x hx hxg, rfl, xs, hfind, x, hx, hxg⟩
        · refine .inl ⟨?_, hlost⟩
          split_ifs with hg
          · subst hg
            refine (hback.mpr fun x hx hxg => hlost ⟨rfl, xs, hfind, x, hx, hxg⟩).symm
          · rfl

/-- One more call after a run. -/
theorem clickRun_append (react : S → Group × List From → List (Group × From) × S) (down : S)
    (calls : List (GroupCall Group (Group × From))) (c : GroupCall Group (Group × From)) :
    clickRun react down (calls ++ [c]) = clickCycle react (clickRun react down calls) c := by
  rw [clickRun, List.foldl_append]
  rfl

/-- In a run of `click`'s version the map stays sorted, and of what has been pushed for a
group some elements are accounted for, in order. -/
theorem clickCycle_run (react : S → Group × List From → List (Group × From) × S) (down : S)
    (calls : List (GroupCall Group (Group × From))) :
    Sorted (clickRun react down calls).1 ∧
      ∀ g, List.Sublist (accountedFor g (clickRun react down calls))
        (pushedFor g (clickRun react down calls).2.2) := by
  induction calls using List.reverseRecOn with
  | nil => exact ⟨sorted_nil, fun g => List.Sublist.refl _⟩
  | append_singleton calls c ih =>
      obtain ⟨hm, hsub⟩ := ih
      rw [clickRun_append]
      refine ⟨sorted_clickCycle hm c, fun g => ?_⟩
      obtain ⟨pushed, kept, haccounts, hcases⟩ := accounts_clickCycle react hm g c
      rw [haccounts.kept, haccounts.pushed]
      refine (hsub g).append ?_
      rcases hcases with ⟨rfl, -⟩ | ⟨rfl, -, -⟩
      · exact List.Sublist.refl _
      · exact List.nil_sublist _

/-- **When `click`'s version loses nothing in a cycle.** In every run, with any downstream:
all elements that have been pushed for a group have been handed on once or are still in the
map, in order, if and only if no element of the group has been pushed back while a pair of
this group was being handed on from an entry of the map. -/
theorem click_cycle_loses_nothing_iff
    (react : S → Group × List From → List (Group × From) × S) (down : S)
    (calls : List (GroupCall Group (Group × From))) (g : Group) :
    LosesNothing g (clickRun react down calls) ↔
      EachAfter (fun before c => ¬ PushesIntoEnded react g (clickRun react down before) c)
        calls := by
  induction calls using List.reverseRecOn with
  | nil => exact ⟨fun _ => EachAfter.nil, fun _ => rfl⟩
  | append_singleton calls c ih =>
      obtain ⟨hm, hsub⟩ := clickCycle_run react down calls
      obtain ⟨pushed, kept, haccounts, hcases⟩ := accounts_clickCycle react hm g c
      rw [eachAfter_append, ← ih, clickRun_append]
      simp only [LosesNothing]
      rw [haccounts.kept, haccounts.pushed]
      rcases hcases with ⟨rfl, hkept⟩ | ⟨rfl, hpushed, hlost⟩
      · exact ⟨fun h => ⟨List.append_cancel_right h, hkept⟩, fun h => by rw [h.1]⟩
      · -- What is lost is missing from then on.
        refine ⟨fun h => ?_, fun h => absurd hlost h.2⟩
        have hlen := congrArg List.length h
        have hle := (hsub g).length_le
        have hpos := List.length_pos_iff.mpr hpushed
        simp only [List.length_append, List.length_nil] at hlen
        omega

/-- **One call of `GroupBy<Push>`** keeps everything: the entry has been erased when elements
are pushed back. -/
theorem accounts_pushpullCycle (group_ : T → Group) (react : S → Group × List T → List T × S)
    {s : CycleState Group T S} (hm : Sorted s.1) (g : Group) (c : GroupCall Group T) :
    Sorted (pushpullCycle group_ react s c).1 ∧
      ∃ pushed, Accounts g s (pushpullCycle group_ react s c) pushed pushed := by
  cases c with
  | push x => exact ⟨hm.update _ _, _, accounts_push g (group_ x, x)⟩
  | endGroup g' =>
      have hend : pushpullCycle group_ react s (.endGroup g') =
          pushingBack (GroupBy.pushGroup group_) (fun x => (group_ x, x)) react
            (s.1.erase less g', s.2) (g', pending g' s.1) := by
        simp [pushpullCycle, GroupBy.endGroup, erase_update, find_update, pending]
      obtain ⟨hpushed, hhanded, hpending, hsorted⟩ :=
        pushingBack_spec (GroupBy.pushGroup group_) (fun x => (group_ x, x)) (fun _ _ => rfl) react
          (s.1.erase less g', s.2) (g', pending g' s.1) g
      rw [hend]
      refine ⟨hsorted (hm.erase g'), _, hpushed, ?_⟩
      rw [accountedFor, hhanded, hpending, pending_erase hm, accountedFor]
      by_cases hg : g' = g
      · simp [hg]
      · simp [hg]

/-- **`GroupBy<Push>` loses nothing in a cycle**, in every run and with any downstream. -/
theorem pushpull_cycle_loses_nothing (group_ : T → Group)
    (react : S → Group × List T → List T × S) (down : S) (calls : List (GroupCall Group T))
    (g : Group) : LosesNothing g (pushpullRun group_ react down calls) := by
  have hrun : Sorted (pushpullRun group_ react down calls).1 ∧
      LosesNothing g (pushpullRun group_ react down calls) := by
    induction calls using List.reverseRecOn with
    | nil => exact ⟨sorted_nil, rfl⟩
    | append_singleton calls c ih =>
        obtain ⟨hm, hnothing⟩ := ih
        rw [pushpullRun, List.foldl_append]
        obtain ⟨hsorted, pushed, haccounts⟩ := accounts_pushpullCycle group_ react hm g c
        refine ⟨hsorted, ?_⟩
        have hkept := haccounts.kept
        rw [← hnothing, ← haccounts.pushed] at hkept
        exact hkept.symm
  exact hrun.2

end Cycle

/-- A downstream that pushes `9` into the group of every pair that is not empty. -/
def pushesNine (_ : Unit) (p : ℕ × List ℕ) : List (ℕ × ℕ) × Unit :=
  (if p.2 = [] then [] else [(p.1, 9)], ())

/-- `5` is pushed for group `0`, which is ended: while `5` is handed on, `9` is pushed back for
the same group. It is not in the map afterwards, and the next end of the group hands on
nothing. -/
theorem pushed_back_is_lost :
    let r := clickRun pushesNine () [.push (0, 5), .endGroup 0, .endGroup 0]
    r.2.2 = [.pushed (0, 5), .handedOn (0, [5]), .pushed (0, 9), .handedOn (0, [])] ∧
      r.1 = [] ∧ ¬ LosesNothing 0 r := by
  refine ⟨by decide, by decide, ?_⟩
  rw [LosesNothing]
  decide

end LatticeFlow
