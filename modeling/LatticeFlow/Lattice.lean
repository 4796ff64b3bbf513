import Mathlib.Order.Lattice
import Mathlib.Order.BooleanAlgebra.Basic

/-!
# Lattices

This module models `lattices/lattice.h` and the four base lattices. A lattice type comes
with two operations: `join`, which joins another value into this one, and `operator==`,
which is `BEq` here. The generic `operator<=` copies its left argument, joins the right
one into it and compares (`Lattice.le`).

All laws are stated up to `operator==`, never up to identity: the containers of the
library compare hash sets and hash maps, whose values do not determine their
representation. `LawfulLattice` collects the laws. A lawful lattice has a quotient
`Lattice.Class` that is a join semilattice in Mathlib's sense, and conversely a map into
a join semilattice that reflects `operator==` and carries `join` to `⊔` makes a lattice
lawful (`LawfulLattice.of_sup`); every lattice of the library is shown lawful that way,
through the quotients of its components.

## Main results

* `LawfulLattice.isJoinSemilattice`: under the laws, `operator<=` is a partial order and
  `join` its least upper bound.
* `lawful_maxLattice`, `lawful_minLattice`, `lawful_boolAndLattice`,
  `lawful_boolOrLattice`: the base lattices are lawful.
* `agreesWithJoin_maxLattice` and its three companions: the hand-written comparisons of
  the base lattices are those of the order induced by `join`.
-/

universe u v

namespace LatticeFlow

/-- The interface `Lattice<L, T>`: `operator==` and `join`, where `join l r` is the value
of `l` after `l.join(r)`. -/
class Lattice (L : Type u) extends BEq L where
  join : L → L → L

/-- The generic `operator<=`: join `r` into a copy of `l` and compare with `r`. -/
def Lattice.le {L : Type u} [Lattice L] (l r : L) : Bool :=
  Lattice.join l r == r

/-- Join the values of a list into `l`, one after the other. -/
def Lattice.accumulate {L : Type u} [Lattice L] (l : L) (ls : List L) : L :=
  ls.foldl Lattice.join l

/-- The first of several values is joined first. -/
theorem Lattice.accumulate_cons {L : Type u} [Lattice L] (l x : L) (ls : List L) :
    Lattice.accumulate l (x :: ls) = Lattice.accumulate (Lattice.join l x) ls := rfl

/-- The laws of a join semilattice up to `operator==`. -/
class LawfulLattice (L : Type u) [Lattice L] : Prop extends EquivBEq L where
  join_congr : ∀ {x x' y y' : L}, (x == x') = true → (y == y') = true →
    (Lattice.join x y == Lattice.join x' y') = true
  join_assoc : ∀ x y z : L,
    (Lattice.join x (Lattice.join y z) == Lattice.join (Lattice.join x y) z) = true
  join_comm : ∀ x y : L, (Lattice.join x y == Lattice.join y x) = true
  join_idem : ∀ x : L, (Lattice.join x x == x) = true

/-- A lattice is lawful if its values can be read in a join semilattice, reflecting
`operator==` and carrying `join` to `⊔`. -/
theorem LawfulLattice.of_sup {L : Type u} {A : Type v} [Lattice L] [SemilatticeSup A]
    (f : L → A) (hbeq : ∀ x y : L, (x == y) = true ↔ f x = f y)
    (hjoin : ∀ x y : L, f (Lattice.join x y) = f x ⊔ f y) : LawfulLattice L where
  rfl {x} := (hbeq x x).mpr rfl
  symm {x y} h := (hbeq y x).mpr ((hbeq x y).mp h).symm
  trans {x y z} h h' := (hbeq x z).mpr (((hbeq x y).mp h).trans ((hbeq y z).mp h'))
  join_congr {x x' y y'} hx hy := by
    rw [hbeq, hjoin, hjoin, (hbeq x x').mp hx, (hbeq y y').mp hy]
  join_assoc x y z := by
    rw [hbeq, hjoin, hjoin, hjoin, hjoin, sup_assoc]
  join_comm x y := by
    rw [hbeq, hjoin, hjoin, sup_comm]
  join_idem x := by
    rw [hbeq, hjoin, sup_idem]

/-! ### The semilattice of classes -/

namespace Lattice

variable {L : Type u} [Lattice L] [LawfulLattice L]

/-- `operator==` as a setoid. -/
def setoid (L : Type u) [Lattice L] [LawfulLattice L] : Setoid L where
  r x y := (x == y) = true
  iseqv := ⟨fun _ => BEq.rfl, BEq.symm, BEq.trans⟩

/-- The values of a lawful lattice up to `operator==`. -/
def Class (L : Type u) [Lattice L] [LawfulLattice L] : Type u :=
  Quotient (setoid L)

/-- The class of a value. -/
def cls (x : L) : Class L :=
  Quotient.mk (setoid L) x

/-- Two values are in one class if `operator==` says so. -/
theorem cls_eq_iff {x y : L} : cls x = cls y ↔ (x == y) = true :=
  Quotient.eq (r := setoid L)

/-- Every class has a value in it. -/
theorem exists_cls (a : Class L) : ∃ x : L, cls x = a :=
  Quotient.exists_rep a

/-- The join of classes. -/
def Class.join : Class L → Class L → Class L :=
  Quotient.map₂ Lattice.join fun _ _ hx _ _ hy => LawfulLattice.join_congr hx hy

/-- Classes form a join semilattice. -/
instance : SemilatticeSup (Class L) :=
  @SemilatticeSup.mk' (Class L) ⟨Class.join⟩
    (fun a b => by
      obtain ⟨x, rfl⟩ := exists_cls a
      obtain ⟨y, rfl⟩ := exists_cls b
      exact cls_eq_iff.mpr (LawfulLattice.join_comm x y))
    (fun a b c => by
      obtain ⟨x, rfl⟩ := exists_cls a
      obtain ⟨y, rfl⟩ := exists_cls b
      obtain ⟨z, rfl⟩ := exists_cls c
      exact cls_eq_iff.mpr (BEq.symm (LawfulLattice.join_assoc x y z)))
    (fun a => by
      obtain ⟨x, rfl⟩ := exists_cls a
      exact cls_eq_iff.mpr (LawfulLattice.join_idem x))

@[simp] theorem cls_join (x y : L) : cls (Lattice.join x y) = cls x ⊔ cls y := rfl

/-- The order of the classes is `operator<=`. -/
theorem cls_le_iff {x y : L} : cls x ≤ cls y ↔ le x y = true := by
  rw [← sup_eq_right, ← cls_join, cls_eq_iff, le]

/-- **Accumulating gives the least upper bound** of the start value and the list. -/
theorem cls_accumulate_le_iff {l : L} {ls : List L} {c : Class L} :
    cls (accumulate l ls) ≤ c ↔ cls l ≤ c ∧ ∀ x ∈ ls, cls x ≤ c := by
  induction ls generalizing l with
  | nil => simp [accumulate]
  | cons x xs ih =>
      rw [accumulate_cons, ih, cls_join, sup_le_iff, List.forall_mem_cons, and_assoc]

/-- The accumulated value is the one whose upper bounds are those of the values. -/
theorem beq_accumulate_iff {x l : L} {ls : List L} :
    (x == accumulate l ls) = true ↔
      ∀ c : Class L, cls x ≤ c ↔ cls l ≤ c ∧ ∀ y ∈ ls, cls y ≤ c := by
  rw [← cls_eq_iff]
  constructor
  · intro h c
    rw [h, cls_accumulate_le_iff]
  · intro h
    exact eq_of_forall_ge_iff fun c => by rw [h c, cls_accumulate_le_iff]

end Lattice

/-- What the header of `lattice.h` says of a lattice: the laws of `join`, that
`operator<=` is a partial order, and that `join` is its least upper bound. -/
structure IsJoinSemilattice (L : Type u) [Lattice L] : Prop where
  join_assoc : ∀ x y z : L,
    (Lattice.join x (Lattice.join y z) == Lattice.join (Lattice.join x y) z) = true
  join_comm : ∀ x y : L, (Lattice.join x y == Lattice.join y x) = true
  join_idem : ∀ x : L, (Lattice.join x x == x) = true
  le_refl : ∀ x : L, Lattice.le x x = true
  le_antisymm : ∀ x y : L, Lattice.le x y = true → Lattice.le y x = true → (x == y) = true
  le_trans : ∀ x y z : L, Lattice.le x y = true → Lattice.le y z = true →
    Lattice.le x z = true
  le_join_left : ∀ x y : L, Lattice.le x (Lattice.join x y) = true
  le_join_right : ∀ x y : L, Lattice.le y (Lattice.join x y) = true
  join_le : ∀ x y z : L, Lattice.le x z = true → Lattice.le y z = true →
    Lattice.le (Lattice.join x y) z = true

/-- **The laws give a join semilattice**: order and least upper bounds are read off the
semilattice of classes. -/
theorem LawfulLattice.isJoinSemilattice {L : Type u} [Lattice L] [LawfulLattice L] :
    IsJoinSemilattice L where
  join_assoc := LawfulLattice.join_assoc
  join_comm := LawfulLattice.join_comm
  join_idem := LawfulLattice.join_idem
  le_refl x := Lattice.cls_le_iff.mp (le_refl (Lattice.cls x))
  le_antisymm x y hxy hyx := by
    rw [← Lattice.cls_eq_iff]
    exact le_antisymm (Lattice.cls_le_iff.mpr hxy) (Lattice.cls_le_iff.mpr hyx)
  le_trans x y z hxy hyz := by
    rw [← Lattice.cls_le_iff] at hxy hyz ⊢
    exact le_trans hxy hyz
  le_join_left x y := by
    rw [← Lattice.cls_le_iff, Lattice.cls_join]
    exact le_sup_left
  le_join_right x y := by
    rw [← Lattice.cls_le_iff, Lattice.cls_join]
    exact le_sup_right
  join_le x y z hx hy := by
    rw [← Lattice.cls_le_iff] at hx hy ⊢
    rw [Lattice.cls_join]
    exact sup_le hx hy

/-! ### Hand-written comparisons -/

/-- A type with an `operator<`. -/
class Less (T : Type u) where
  lt : T → T → Bool

/-- A type with all four comparisons. -/
class Comparisons (T : Type u) extends Less T where
  le : T → T → Bool
  gt : T → T → Bool
  ge : T → T → Bool

/-- The hand-written comparisons of a lattice are those of the order that `join`
induces. -/
def AgreesWithJoin (L : Type u) [Lattice L] [Comparisons L] : Prop :=
  ∀ x y : L, Less.lt x y = (Lattice.le x y && !(x == y)) ∧
    Comparisons.le x y = Lattice.le x y ∧
    Comparisons.gt x y = (Lattice.le y x && !(y == x)) ∧
    Comparisons.ge x y = Lattice.le y x

/-- `operator<` and `operator<=` decide the matter where `operator>` and `operator>=` are
their mirror images. -/
theorem AgreesWithJoin.of_lt_le {L : Type u} [Lattice L] [Comparisons L]
    (hlt : ∀ x y : L, Less.lt x y = (Lattice.le x y && !(x == y)))
    (hle : ∀ x y : L, Comparisons.le x y = Lattice.le x y)
    (hgt : ∀ x y : L, Comparisons.gt x y = Less.lt y x)
    (hge : ∀ x y : L, Comparisons.ge x y = Comparisons.le y x) : AgreesWithJoin L := by
  intro x y
  exact ⟨hlt x y, hle x y, (hgt x y).trans (hlt y x), (hge x y).trans (hle y x)⟩

/-! ### The maximum lattice -/

/-- `MaxLattice<T>`: a totally ordered type under `max`. -/
structure MaxLattice (T : Type u) where
  x_ : T
  deriving Repr

namespace MaxLattice

variable {T : Type u}

/-- The wrapped value. -/
def get (l : MaxLattice T) : T := l.x_

variable [LinearOrder T]

/-- `x_ = std::max(x_, l.x_)`, where `std::max` keeps its first argument on a tie. -/
instance : Lattice (MaxLattice T) where
  beq l r := l.x_ == r.x_
  join l r := ⟨if l.x_ < r.x_ then r.x_ else l.x_⟩

instance : Comparisons (MaxLattice T) where
  lt l r := l.x_ < r.x_
  le l r := l.x_ ≤ r.x_
  gt l r := l.x_ > r.x_
  ge l r := l.x_ ≥ r.x_

/-- `operator==` compares the values. -/
theorem beq_iff {l r : MaxLattice T} : (l == r) = true ↔ l.x_ = r.x_ := by
  show (l.x_ == r.x_) = true ↔ _
  exact beq_iff_eq

/-- The join is the larger value. -/
theorem get_join (l r : MaxLattice T) : (Lattice.join l r).get = l.get ⊔ r.get := by
  show (if l.x_ < r.x_ then r.x_ else l.x_) = l.x_ ⊔ r.x_
  split_ifs with h
  · exact (max_eq_right h.le).symm
  · exact (max_eq_left (not_lt.mp h)).symm

/-- The order is that of the values. -/
theorem le_iff {l r : MaxLattice T} : Lattice.le l r = true ↔ l.x_ ≤ r.x_ := by
  rw [Lattice.le, beq_iff]
  exact (congrArg (· = r.x_) (get_join l r)).to_iff.trans sup_eq_right

end MaxLattice

instance lawful_maxLattice {T : Type u} [LinearOrder T] : LawfulLattice (MaxLattice T) :=
  LawfulLattice.of_sup MaxLattice.get (fun _ _ => MaxLattice.beq_iff) MaxLattice.get_join

/-- The hand-written comparisons of `MaxLattice` are those of its join. -/
theorem agreesWithJoin_maxLattice {T : Type u} [LinearOrder T] :
    AgreesWithJoin (MaxLattice T) := by
  refine AgreesWithJoin.of_lt_le ?_ ?_ (fun _ _ => rfl) (fun _ _ => rfl)
  · intro x y
    rw [Bool.eq_iff_iff, Bool.and_eq_true, MaxLattice.le_iff, Bool.not_eq_true',
      ← Bool.not_eq_true, MaxLattice.beq_iff]
    exact decide_eq_true_iff.trans lt_iff_le_and_ne
  · intro x y
    rw [Bool.eq_iff_iff, MaxLattice.le_iff]
    exact decide_eq_true_iff

/-! ### The minimum lattice -/

/-- `MinLattice<T>`: a totally ordered type under `min`. -/
structure MinLattice (T : Type u) where
  x_ : T
  deriving Repr

namespace MinLattice

variable {T : Type u}

/-- The wrapped value. -/
def get (l : MinLattice T) : T := l.x_

variable [LinearOrder T]

/-- `x_ = std::min(x_, l.x_)`, where `std::min` keeps its first argument on a tie. -/
instance : Lattice (MinLattice T) where
  beq l r := l.x_ == r.x_
  join l r := ⟨if r.x_ < l.x_ then r.x_ else l.x_⟩

/-- The comparisons are those of `T` turned around. -/
instance : Comparisons (MinLattice T) where
  lt l r := l.x_ > r.x_
  le l r := l.x_ ≥ r.x_
  gt l r := l.x_ < r.x_
  ge l r := l.x_ ≤ r.x_

/-- `operator==` compares the values. -/
theorem beq_iff {l r : MinLattice T} : (l == r) = true ↔ l.x_ = r.x_ := by
  show (l.x_ == r.x_) = true ↔ _
  exact beq_iff_eq

/-- The join is the smaller value. -/
theorem get_join (l r : MinLattice T) : (Lattice.join l r).get = l.get ⊓ r.get := by
  show (if r.x_ < l.x_ then r.x_ else l.x_) = l.x_ ⊓ r.x_
  split_ifs with h
  · exact (min_eq_right h.le).symm
  · exact (min_eq_left (not_lt.mp h)).symm

/-- The order is the reverse of that of the values. -/
theorem le_iff {l r : MinLattice T} : Lattice.le l r = true ↔ r.x_ ≤ l.x_ := by
  rw [Lattice.le, beq_iff]
  exact (congrArg (· = r.x_) (get_join l r)).to_iff.trans inf_eq_right

end MinLattice

instance lawful_minLattice {T : Type u} [LinearOrder T] : LawfulLattice (MinLattice T) :=
  LawfulLattice.of_sup (A := Tᵒᵈ) (fun l => OrderDual.toDual l.get)
    (fun _ _ => MinLattice.beq_iff) MinLattice.get_join

/-- The hand-written comparisons of `MinLattice` are those of its join. -/
theorem agreesWithJoin_minLattice {T : Type u} [LinearOrder T] :
    AgreesWithJoin (MinLattice T) := by
  refine AgreesWithJoin.of_lt_le ?_ ?_ (fun _ _ => rfl) (fun _ _ => rfl)
  · intro x y
    rw [Bool.eq_iff_iff, Bool.and_eq_true, MinLattice.le_iff, Bool.not_eq_true',
      ← Bool.not_eq_true, MinLattice.beq_iff, eq_comm (a := x.x_)]
    exact decide_eq_true_iff.trans lt_iff_le_and_ne
  · intro x y
    rw [Bool.eq_iff_iff, MinLattice.le_iff]
    exact decide_eq_true_iff

/-! ### The boolean lattices -/

/-- `BoolAndLattice`: booleans ordered by reverse implication, join is `&&`. -/
structure BoolAndLattice where
  b_ : Bool
  deriving Repr

namespace BoolAndLattice

/-- The wrapped value. -/
def get (l : BoolAndLattice) : Bool := l.b_

/-- `convert(true) = 0` and `convert(false) = 1`. -/
def convert (l : BoolAndLattice) : ℤ := if l.b_ then 0 else 1

instance : Lattice BoolAndLattice where
  beq l r := l.convert == r.convert
  join l r := ⟨l.b_ && r.b_⟩

instance : Comparisons BoolAndLattice where
  lt l r := l.convert < r.convert
  le l r := l.convert ≤ r.convert
  gt l r := l.convert > r.convert
  ge l r := l.convert ≥ r.convert

end BoolAndLattice

instance lawful_boolAndLattice : LawfulLattice BoolAndLattice :=
  LawfulLattice.of_sup (A := Boolᵒᵈ) (fun l => OrderDual.toDual l.get)
    (by rintro ⟨_ | _⟩ ⟨_ | _⟩ <;> decide) (by rintro ⟨_ | _⟩ ⟨_ | _⟩ <;> rfl)

/-- The hand-written comparisons of `BoolAndLattice` are those of its join. -/
theorem agreesWithJoin_boolAndLattice : AgreesWithJoin BoolAndLattice :=
  AgreesWithJoin.of_lt_le (by rintro ⟨_ | _⟩ ⟨_ | _⟩ <;> rfl)
    (by rintro ⟨_ | _⟩ ⟨_ | _⟩ <;> rfl) (fun _ _ => rfl) (fun _ _ => rfl)

/-- `BoolOrLattice`: booleans ordered by implication, join is `||`. -/
structure BoolOrLattice where
  b_ : Bool
  deriving Repr

namespace BoolOrLattice

/-- The wrapped value. -/
def get (l : BoolOrLattice) : Bool := l.b_

/-- `convert(true) = 1` and `convert(false) = 0`. -/
def convert (l : BoolOrLattice) : ℤ := if l.b_ then 1 else 0

instance : Lattice BoolOrLattice where
  beq l r := l.convert == r.convert
  join l r := ⟨l.b_ || r.b_⟩

instance : Comparisons BoolOrLattice where
  lt l r := l.convert < r.convert
  le l r := l.convert ≤ r.convert
  gt l r := l.convert > r.convert
  ge l r := l.convert ≥ r.convert

end BoolOrLattice

instance lawful_boolOrLattice : LawfulLattice BoolOrLattice :=
  LawfulLattice.of_sup BoolOrLattice.get
    (by rintro ⟨_ | _⟩ ⟨_ | _⟩ <;> decide) (by rintro ⟨_ | _⟩ ⟨_ | _⟩ <;> rfl)

/-- The hand-written comparisons of `BoolOrLattice` are those of its join. -/
theorem agreesWithJoin_boolOrLattice : AgreesWithJoin BoolOrLattice :=
  AgreesWithJoin.of_lt_le (by rintro ⟨_ | _⟩ ⟨_ | _⟩ <;> rfl)
    (by rintro ⟨_ | _⟩ ⟨_ | _⟩ <;> rfl) (fun _ _ => rfl) (fun _ _ => rfl)

end LatticeFlow
