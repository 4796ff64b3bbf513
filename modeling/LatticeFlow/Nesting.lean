import LatticeFlow.MapLattice
import LatticeFlow.TimestampLattice

/-!
# Every Nesting of the Lattices

The lattices of the library are template classes that nest freely. `Nested L` says that
the lattice type `L` is built by such a nesting: base lattices and sets at the leaves,
then pairs, arrays, vectors, maps and timestamped values over types already built, with a
totally ordered base lattice as the timestamp type.

Lawfulness goes through each constructor (`LatticeFlow.Containers`,
`LatticeFlow.MapLattice`, `LatticeFlow.TimestampLattice`), so it holds for every nesting
by induction on how the type is built.

## Main results

* `Nested.lawful`: every nested lattice type is lawful.
* `nested_isJoinSemilattice`: every nested lattice type is a join semilattice under its
  `operator==` and `operator<=`, and the hand-written comparisons agree with them.
-/

namespace LatticeFlow

/-- The timestamp types of the grammar: the totally ordered base lattices with their
hand-written `operator<`. -/
inductive BaseTimestamp : (T : Type) → Lattice T → Less T → Prop
  | max (T : Type) [LinearOrder T] :
      BaseTimestamp (MaxLattice T) MaxLattice.instLattice MaxLattice.instComparisons.toLess
  | min (T : Type) [LinearOrder T] :
      BaseTimestamp (MinLattice T) MinLattice.instLattice MinLattice.instComparisons.toLess
  | boolAnd :
      BaseTimestamp BoolAndLattice BoolAndLattice.instLattice
        BoolAndLattice.instComparisons.toLess
  | boolOr :
      BaseTimestamp BoolOrLattice BoolOrLattice.instLattice
        BoolOrLattice.instComparisons.toLess

/-- The lattice types built by nesting the lattices of the library, each with its
`operator==` and `join`. -/
inductive Nested : (L : Type) → Lattice L → Prop
  | max (T : Type) [LinearOrder T] : Nested (MaxLattice T) inferInstance
  | min (T : Type) [LinearOrder T] : Nested (MinLattice T) inferInstance
  | boolAnd : Nested BoolAndLattice inferInstance
  | boolOr : Nested BoolOrLattice inferInstance
  | setUnion (T : Type) [DecidableEq T] : Nested (SetUnionLattice T) inferInstance
  | setIntersect (T : Type) [DecidableEq T] : Nested (SetIntersectLattice T) inferInstance
  | pair {L R : Type} [iL : Lattice L] [iR : Lattice R] :
      Nested L iL → Nested R iR → Nested (PairLattice L R) inferInstance
  | array {T : Type} [iT : Lattice T] (n : ℕ) :
      Nested T iT → Nested (ArrayLattice T n) inferInstance
  | vector {T : Type} [iT : Lattice T] :
      Nested T iT → Nested (VectorLattice T) inferInstance
  | map (K : Type) [DecidableEq K] {V : Type} [iV : Lattice V] :
      Nested V iV → Nested (MapLattice K V) inferInstance
  | timestamp {T L : Type} [iT : Lattice T] [iLess : Less T] [iL : Lattice L] :
      BaseTimestamp T iT iLess → Nested L iL → Nested (TimestampLattice T L) inferInstance

/-- A timestamp type of the grammar is lawful and totally ordered. -/
theorem BaseTimestamp.lawful {T : Type} [iT : Lattice T] [iLess : Less T]
    (h : BaseTimestamp T iT iLess) : LawfulLattice T ∧ LawfulLess T ∧ TotallyOrdered T := by
  cases h with
  | max T => exact ⟨inferInstance, inferInstance, totallyOrdered_maxLattice⟩
  | min T => exact ⟨inferInstance, inferInstance, totallyOrdered_minLattice⟩
  | boolAnd => exact ⟨inferInstance, inferInstance, totallyOrdered_boolAndLattice⟩
  | boolOr => exact ⟨inferInstance, inferInstance, totallyOrdered_boolOrLattice⟩

/-- **Every nesting is lawful**, by induction on the nesting: each constructor passes the
laws of its components on. -/
theorem Nested.lawful {L : Type} [iL : Lattice L] (h : Nested L iL) : LawfulLattice L := by
  induction h with
  | max T => exact lawful_maxLattice
  | min T => exact lawful_minLattice
  | boolAnd => exact lawful_boolAndLattice
  | boolOr => exact lawful_boolOrLattice
  | setUnion T => exact lawful_setUnionLattice
  | setIntersect T => exact lawful_setIntersectLattice
  | pair _ _ ihL ihR =>
      have := ihL
      have := ihR
      exact lawful_pairLattice
  | array n _ ih =>
      have := ih
      exact lawful_arrayLattice
  | vector _ ih =>
      have := ih
      exact lawful_vectorLattice
  | map K _ ih =>
      have := ih
      exact lawful_mapLattice
  | timestamp hT _ ih =>
      obtain ⟨hlat, hless, htotal⟩ := hT.lawful
      have := ih
      exact lawful_timestampLattice_of_total htotal

/-- **The semilattice laws for the whole library.** Every nested lattice type is a join
semilattice with respect to `operator==`: `join` is associative, commutative and
idempotent, `operator<=` is a partial order and `join` its least upper bound. The
hand-written comparisons of the base lattices are those of that order. -/
theorem nested_isJoinSemilattice :
    (∀ (L : Type) [iL : Lattice L], Nested L iL → IsJoinSemilattice L) ∧
    (∀ (T : Type) [LinearOrder T],
      AgreesWithJoin (MaxLattice T) ∧ AgreesWithJoin (MinLattice T)) ∧
    AgreesWithJoin BoolAndLattice ∧ AgreesWithJoin BoolOrLattice := by
  refine ⟨fun L iL h => ?_, fun T _ => ⟨agreesWithJoin_maxLattice, agreesWithJoin_minLattice⟩,
    agreesWithJoin_boolAndLattice, agreesWithJoin_boolOrLattice⟩
  have := h.lawful
  exact LawfulLattice.isJoinSemilattice

/-- The laws at a type that nests vectors of pairs in timestamped values in a map. -/
theorem nested_isJoinSemilattice_store :
    IsJoinSemilattice (MapLattice ℕ (TimestampLattice (MaxLattice ℤ)
      (VectorLattice (PairLattice (SetIntersectLattice ℕ) (ArrayLattice BoolAndLattice 2))))) :=
  nested_isJoinSemilattice.1 _ (.map ℕ (.timestamp (.max ℤ)
    (.vector (.pair (.setIntersect ℕ) (.array 2 .boolAnd)))))

end LatticeFlow
