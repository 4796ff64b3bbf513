import Mathlib.Data.Fin.Basic
import Mathlib.Data.List.FinRange
import Mathlib.Order.ConditionallyCompleteLattice.Basic
import Mathlib.Order.WithBot
import LatticeFlow.Lattice
import LatticeFlow.Lib.Unordered

/-!
# Set, Pair, Array and Vector Lattices

This module models `set_union_lattice.h`, `set_intersect_lattice.h`, `pair_lattice.h`,
`array_lattice.h` and `vector_lattice.h`. Each `join` is written as the loop of the
source: union inserts element by element, intersection erases while it iterates, the
array is joined in place index by index, and the vector joins the common indices in
place and then appends the tail of the longer side.

`OptionClass`, the semilattice of classes with a bottom added for "nothing here", is the
value a growable container has at one of its positions; `toClass` reads an optional
entry in it. The vector lattice below and the map lattice are families of such entries.

## Main results

* `lawful_setUnionLattice`, `lawful_setIntersectLattice`, `lawful_pairLattice`,
  `lawful_arrayLattice`, `lawful_vectorLattice`: each container is lawful when its
  components are.
-/

universe u v

open LatticeFlow.Lattice (cls)

namespace LatticeFlow

/-! ### Optional entries -/

section OptionClass

variable {L : Type u} [Lattice L]

/-- The join of two optional entries, by the table of `map_lattice.h`: an entry on one
side only is kept, two entries are joined. -/
def joinEntry : Option L → Option L → Option L
  | none, y => y
  | some x, none => some x
  | some x, some y => some (Lattice.join x y)

variable [LawfulLattice L]

/-- The classes of a lattice with a bottom for an absent entry. -/
abbrev OptionClass (L : Type u) [Lattice L] [LawfulLattice L] : Type u :=
  WithBot (Lattice.Class L)

/-- The class of an optional entry. -/
def toClass : Option L → OptionClass L
  | none => ⊥
  | some x => (cls x : OptionClass L)

@[simp] theorem toClass_none : toClass (none : Option L) = ⊥ := rfl

@[simp] theorem toClass_some (x : L) : toClass (some x) = (cls x : OptionClass L) := rfl

@[simp] theorem toClass_joinEntry (x y : Option L) :
    toClass (joinEntry x y) = toClass x ⊔ toClass y := by
  cases x with
  | none => simp [joinEntry]
  | some x =>
      cases y with
      | none => simp [joinEntry]
      | some y => simp [joinEntry, WithBot.coe_sup]

/-- Optional entries have one class exactly when both are absent, or both are present and
`operator==` holds. -/
theorem toClass_eq_iff {x y : Option L} :
    toClass x = toClass y ↔ Option.Rel (fun a b => (a == b) = true) x y := by
  cases x with
  | none =>
      cases y with
      | none => exact ⟨fun _ => Option.Rel.none, fun _ => rfl⟩
      | some y => exact ⟨fun h => absurd h WithBot.bot_ne_coe, fun h => by cases h⟩
  | some x =>
      cases y with
      | none => exact ⟨fun h => absurd h WithBot.coe_ne_bot, fun h => by cases h⟩
      | some y =>
          rw [toClass_some, toClass_some, WithBot.coe_inj, Lattice.cls_eq_iff]
          exact ⟨fun h => Option.Rel.some h, fun h => by cases h with | some h => exact h⟩

end OptionClass

/-! ### Set union -/

/-- `SetUnionLattice<T>`: hash sets under union. -/
structure SetUnionLattice (T : Type u) where
  xs_ : UnorderedSet T

namespace SetUnionLattice

variable {T : Type u} [DecidableEq T]

/-- `join` inserts the elements of the other set one by one. -/
instance : Lattice (SetUnionLattice T) where
  beq l r := l.xs_.beq r.xs_
  join l r := ⟨r.xs_.elems.foldl UnorderedSet.insert l.xs_⟩

/-- The members of the set. -/
def members (l : SetUnionLattice T) : Set T := {x | x ∈ l.xs_}

/-- `operator==` is equality of the sets. -/
theorem beq_iff {l r : SetUnionLattice T} : (l == r) = true ↔ l.members = r.members := by
  rw [Set.ext_iff]
  exact UnorderedSet.beq_iff

/-- The join has the members of both sides. -/
theorem members_join (l r : SetUnionLattice T) :
    (Lattice.join l r).members = l.members ⊔ r.members := by
  ext x
  exact UnorderedSet.mem_foldl_insert

end SetUnionLattice

instance lawful_setUnionLattice {T : Type u} [DecidableEq T] :
    LawfulLattice (SetUnionLattice T) :=
  LawfulLattice.of_sup SetUnionLattice.members (fun _ _ => SetUnionLattice.beq_iff)
    SetUnionLattice.members_join

/-! ### Set intersection -/

/-- `SetIntersectLattice<T>`: hash sets under intersection. -/
structure SetIntersectLattice (T : Type u) where
  xs_ : UnorderedSet T

namespace SetIntersectLattice

variable {T : Type u} [DecidableEq T]

/-- The loop that erases while it iterates. The set is `seen ++ rest`, the iterator
stands at the head of `rest`; an element that the other set lacks is erased and the
iterator moves to its successor. -/
def eraseLoop (other : UnorderedSet T) (seen : List T) : List T → List T
  | [] => seen
  | x :: rest =>
      if 0 < other.count x then eraseLoop other (seen ++ [x]) rest
      else eraseLoop other seen rest

/-- The loop keeps what it has seen and the elements of the rest that the other set
has. -/
theorem eraseLoop_eq (other : UnorderedSet T) (seen rest : List T) :
    eraseLoop other seen rest = seen ++ rest.filter fun x => 0 < other.count x := by
  induction rest generalizing seen with
  | nil => simp [eraseLoop]
  | cons x rest ih =>
      rw [eraseLoop]
      by_cases hx : 0 < other.count x
      · rw [if_pos hx, ih, List.filter_cons_of_pos (by simpa using hx), List.append_assoc]
        rfl
      · rw [if_neg hx, ih, List.filter_cons_of_neg (by simpa using hx)]

/-- Erasing elements leaves the others distinct. -/
theorem eraseLoop_nodup (other s : UnorderedSet T) : (eraseLoop other [] s.elems).Nodup := by
  rw [eraseLoop_eq, List.nil_append]
  exact s.nodup.filter _

instance : Lattice (SetIntersectLattice T) where
  beq l r := l.xs_.beq r.xs_
  join l r := ⟨⟨eraseLoop r.xs_ [] l.xs_.elems, eraseLoop_nodup r.xs_ l.xs_⟩⟩

/-- The members of the set. -/
def members (l : SetIntersectLattice T) : Set T := {x | x ∈ l.xs_}

/-- `operator==` is equality of the sets. -/
theorem beq_iff {l r : SetIntersectLattice T} :
    (l == r) = true ↔ l.members = r.members := by
  rw [Set.ext_iff]
  exact UnorderedSet.beq_iff

/-- The join has the members that both sides have. -/
theorem members_join (l r : SetIntersectLattice T) :
    (Lattice.join l r).members = l.members ⊓ r.members := by
  ext x
  change x ∈ eraseLoop r.xs_ [] l.xs_.elems ↔ x ∈ l.xs_.elems ∧ x ∈ r.xs_
  rw [eraseLoop_eq, List.nil_append, List.mem_filter, decide_eq_true_iff,
    UnorderedSet.count_pos]

end SetIntersectLattice

instance lawful_setIntersectLattice {T : Type u} [DecidableEq T] :
    LawfulLattice (SetIntersectLattice T) :=
  LawfulLattice.of_sup (A := (Set T)ᵒᵈ) (fun l => OrderDual.toDual l.members)
    (fun _ _ => SetIntersectLattice.beq_iff) SetIntersectLattice.members_join

/-! ### Pairs -/

/-- `PairLattice<L, R>`: pairs, joined componentwise. -/
structure PairLattice (L : Type u) (R : Type v) where
  p_ : L × R

instance {L : Type u} {R : Type v} [Lattice L] [Lattice R] : Lattice (PairLattice L R) where
  beq l r := l.p_ == r.p_
  join l r := ⟨(Lattice.join l.p_.1 r.p_.1, Lattice.join l.p_.2 r.p_.2)⟩

/-- `operator==` compares the components. -/
theorem PairLattice.beq_iff {L : Type u} {R : Type v} [Lattice L] [Lattice R]
    {l r : PairLattice L R} :
    (l == r) = true ↔ (l.p_.1 == r.p_.1) = true ∧ (l.p_.2 == r.p_.2) = true :=
  Bool.and_eq_true_iff

instance lawful_pairLattice {L : Type u} {R : Type v} [Lattice L] [Lattice R]
    [LawfulLattice L] [LawfulLattice R] : LawfulLattice (PairLattice L R) :=
  LawfulLattice.of_sup (fun l => (cls l.p_.1, cls l.p_.2))
    (fun l r => by
      rw [PairLattice.beq_iff, Prod.mk.injEq, Lattice.cls_eq_iff, Lattice.cls_eq_iff])
    (fun _ _ => rfl)

/-! ### Arrays -/

/-- `ArrayLattice<T, N>`: arrays of one fixed length, joined index by index. -/
structure ArrayLattice (T : Type u) (n : ℕ) where
  xs_ : Fin n → T

namespace ArrayLattice

variable {T : Type u} {n : ℕ} [Lattice T]

/-- The loop `xs_[i].join(l.xs_[i])` over a list of indices. -/
def joinLoop (ys : Fin n → T) (is : List (Fin n)) (xs : Fin n → T) : Fin n → T :=
  is.foldl (fun xs i => Function.update xs i (Lattice.join (xs i) (ys i))) xs

/-- Every index of the list has been joined once, every other index is untouched. -/
theorem joinLoop_apply (ys : Fin n → T) {is : List (Fin n)} (his : is.Nodup)
    (xs : Fin n → T) (i : Fin n) :
    joinLoop ys is xs i = if i ∈ is then Lattice.join (xs i) (ys i) else xs i := by
  induction is generalizing xs with
  | nil => rfl
  | cons j is ih =>
      obtain ⟨hj, his⟩ := List.nodup_cons.mp his
      have hstep := ih his (Function.update xs j (Lattice.join (xs j) (ys j)))
      rw [joinLoop, List.foldl_cons, ← joinLoop, hstep]
      by_cases hij : i = j
      · subst hij
        rw [if_neg hj, if_pos List.mem_cons_self, Function.update_self]
      · rw [Function.update_of_ne hij]
        simp [hij]

instance : Lattice (ArrayLattice T n) where
  beq l r := decide (∀ i, (l.xs_ i == r.xs_ i) = true)
  join l r := ⟨joinLoop r.xs_ (List.finRange n) l.xs_⟩

/-- `operator==` compares the elements one by one. -/
theorem beq_iff {l r : ArrayLattice T n} :
    (l == r) = true ↔ ∀ i, (l.xs_ i == r.xs_ i) = true :=
  decide_eq_true_iff

/-- The join joins the elements one by one. -/
theorem join_apply (l r : ArrayLattice T n) (i : Fin n) :
    (Lattice.join l r).xs_ i = Lattice.join (l.xs_ i) (r.xs_ i) := by
  have h := joinLoop_apply r.xs_ (List.nodup_finRange n) l.xs_ i
  rw [if_pos (List.mem_finRange i)] at h
  exact h

end ArrayLattice

instance lawful_arrayLattice {T : Type u} {n : ℕ} [Lattice T] [LawfulLattice T] :
    LawfulLattice (ArrayLattice T n) :=
  LawfulLattice.of_sup (fun l i => cls (l.xs_ i))
    (fun l r => by
      rw [ArrayLattice.beq_iff, funext_iff]
      exact forall_congr' fun i => Lattice.cls_eq_iff.symm)
    (fun l r => by
      funext i
      rw [ArrayLattice.join_apply, Lattice.cls_join, Pi.sup_apply])

/-! ### Vectors -/

/-- `VectorLattice<T>`: vectors of any length; the longer one keeps its tail. -/
structure VectorLattice (T : Type u) where
  xs_ : List T

namespace VectorLattice

variable {T : Type u} [Lattice T]

/-- The loop over the indices below both sizes, joining in place. -/
def joinPrefix : List T → List T → List T
  | x :: xs, y :: ys => Lattice.join x y :: joinPrefix xs ys
  | xs, [] => xs
  | [], _ => []

/-- `join`: the loop, then the elements of the other vector from `xs_.size()` on are
appended if there are any. -/
instance : Lattice (VectorLattice T) where
  beq l r := l.xs_ == r.xs_
  join l r :=
    ⟨if l.xs_.length < r.xs_.length
      then joinPrefix l.xs_ r.xs_ ++ r.xs_.drop l.xs_.length
      else joinPrefix l.xs_ r.xs_⟩

/-- After the loop and the append, each index holds the join of the two entries. -/
theorem getElem?_join (xs ys : List T) (i : ℕ) :
    (if xs.length < ys.length then joinPrefix xs ys ++ ys.drop xs.length
      else joinPrefix xs ys)[i]? = joinEntry xs[i]? ys[i]? := by
  induction xs, ys using joinPrefix.induct generalizing i with
  | case1 x xs y ys ih =>
      cases i with
      | zero => by_cases h : xs.length < ys.length <;> simp [joinPrefix, joinEntry, h]
      | succ i =>
          have hi := ih i
          by_cases h : xs.length < ys.length <;> simpa [joinPrefix, h] using hi
  | case2 xs =>
      have hnil : joinPrefix xs ([] : List T) = xs := by cases xs <;> rfl
      rw [if_neg (by simp), hnil]
      cases xs[i]? <;> rfl
  | case3 ys h =>
      have hnil : joinPrefix ([] : List T) ys = [] := by cases ys <;> rfl
      rw [hnil]
      cases ys with
      | nil => rfl
      | cons y ys => rfl

/-- `operator==` compares the elements one by one, as many on both sides. -/
theorem beq_iff {l r : VectorLattice T} :
    (l == r) = true ↔
      ∀ i : ℕ, Option.Rel (fun a b => (a == b) = true) l.xs_[i]? r.xs_[i]? := by
  obtain ⟨xs⟩ := l
  obtain ⟨ys⟩ := r
  change (xs == ys) = true ↔ _
  induction xs generalizing ys with
  | nil =>
      cases ys with
      | nil => exact ⟨fun _ _ => Option.Rel.none, fun _ => rfl⟩
      | cons y ys => exact ⟨fun h => by simp at h, fun h => by cases h 0⟩
  | cons x xs ih =>
      cases ys with
      | nil => exact ⟨fun h => by simp at h, fun h => by cases h 0⟩
      | cons y ys =>
          rw [List.cons_beq_cons, Bool.and_eq_true, ih ys]
          constructor
          · rintro ⟨h0, h⟩ i
            cases i with
            | zero => exact Option.Rel.some h0
            | succ i => exact h i
          · intro h
            refine ⟨?_, fun i => h (i + 1)⟩
            cases h 0 with
            | some h0 => exact h0

end VectorLattice

instance lawful_vectorLattice {T : Type u} [Lattice T] [LawfulLattice T] :
    LawfulLattice (VectorLattice T) :=
  LawfulLattice.of_sup (fun l (i : ℕ) => toClass l.xs_[i]?)
    (fun l r => by
      rw [VectorLattice.beq_iff, funext_iff]
      exact forall_congr' fun i => toClass_eq_iff.symm)
    (fun l r => by
      funext i
      have h := VectorLattice.getElem?_join l.xs_ r.xs_ i
      exact (congrArg toClass h).trans (toClass_joinEntry _ _))

end LatticeFlow
