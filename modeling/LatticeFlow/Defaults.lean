import Mathlib.Algebra.Group.Int.Defs
import LatticeFlow.Nesting

/-!
# Default Construction

`lattice.h` recommends that the default constructor of a lattice that has a bottom element
initialises to it, so that values can be accumulated into a default-constructed lattice.
The two boolean lattices follow this in their own constructors. `MaxLattice<T>` and
`MinLattice<T>` value-initialise the wrapped `T`, which need not be the least or the
greatest one; an empty intersection lattice is the top of its order; and the other
lattices construct what they are made of.

A default constructor is an `Inhabited` instance here, and so is the value-initialisation
`T()` of a wrapped type. `LatticeType` is the syntax of the nested types, over which the
condition can be stated: `LatticeType.StartsAtBottom` follows how the type is built.

## Main results

* `LatticeType.nested`: the types of the syntax are the nested lattice types.
* `startsAtBottom_iff`: the default-constructed value is the bottom, and accumulating into
  it gives the join of the accumulated values, exactly if the type starts at the bottom.
-/

open LatticeFlow.Lattice (cls)

namespace LatticeFlow

/-- A bottom element: joining any `x` into it gives `x`. -/
def Lattice.IsBottom {L : Type} [Lattice L] (b : L) : Prop :=
  ∀ x : L, (Lattice.join b x == x) = true

/-! ### Default constructors -/

section Default

variable {T L R K V : Type}

/-- `MaxLattice() : x_() {}`. -/
instance [Inhabited T] : Inhabited (MaxLattice T) := ⟨⟨default⟩⟩

/-- `MinLattice() : x_() {}`. -/
instance [Inhabited T] : Inhabited (MinLattice T) := ⟨⟨default⟩⟩

/-- `BoolAndLattice() : BoolAndLattice(true) {}`. -/
instance : Inhabited BoolAndLattice := ⟨⟨true⟩⟩

/-- `BoolOrLattice() : BoolOrLattice(false) {}`. -/
instance : Inhabited BoolOrLattice := ⟨⟨false⟩⟩

instance : Inhabited (SetUnionLattice T) := ⟨⟨∅⟩⟩

instance : Inhabited (SetIntersectLattice T) := ⟨⟨∅⟩⟩

instance [Inhabited L] [Inhabited R] : Inhabited (PairLattice L R) := ⟨⟨(default, default)⟩⟩

instance [Inhabited T] {n : ℕ} : Inhabited (ArrayLattice T n) := ⟨⟨fun _ => default⟩⟩

instance : Inhabited (VectorLattice T) := ⟨⟨[]⟩⟩

instance [DecidableEq K] : Inhabited (MapLattice K V) := ⟨MapLattice.empty⟩

instance [Inhabited T] [Inhabited L] : Inhabited (TimestampLattice T L) :=
  ⟨⟨(default, default)⟩⟩

end Default

/-! ### Bottoms of each lattice -/

section Bottom

variable {L : Type} [Lattice L]

/-- A bottom is a value whose class is least. -/
theorem Lattice.isBottom_iff_cls [LawfulLattice L] {b : L} :
    Lattice.IsBottom b ↔ ∀ x : L, cls b ≤ cls x :=
  forall_congr' fun _ => Lattice.cls_le_iff.symm

/-- Accumulating into a bottom joins exactly the accumulated values. -/
theorem Lattice.IsBottom.accumulate [LawfulLattice L] {b : L} (h : Lattice.IsBottom b) (x : L)
    (xs : List L) : (Lattice.accumulate b (x :: xs) == Lattice.accumulate x xs) = true := by
  rw [Lattice.beq_accumulate_iff]
  intro c
  rw [Lattice.accumulate_cons, Lattice.cls_accumulate_le_iff, Lattice.cls_join, sup_le_iff]
  have hx : cls x ≤ c → cls b ≤ c := (Lattice.isBottom_iff_cls.mp h x).trans
  tauto

end Bottom

/-- The bottom of a `MaxLattice` is the least value. -/
theorem MaxLattice.isBottom_iff {T : Type} [LinearOrder T] {b : MaxLattice T} :
    Lattice.IsBottom b ↔ ∀ x : T, b.x_ ≤ x := by
  constructor
  · intro h x
    exact MaxLattice.le_iff.mp (h ⟨x⟩)
  · intro h x
    exact MaxLattice.le_iff.mpr (h x.x_)

/-- The bottom of a `MinLattice` is the largest value. -/
theorem MinLattice.isBottom_iff {T : Type} [LinearOrder T] {b : MinLattice T} :
    Lattice.IsBottom b ↔ ∀ x : T, x ≤ b.x_ := by
  constructor
  · intro h x
    exact MinLattice.le_iff.mp (h ⟨x⟩)
  · intro h x
    exact MinLattice.le_iff.mpr (h x.x_)

/-- `BoolAndLattice()` holds `true`, its bottom. -/
theorem BoolAndLattice.isBottom_default : Lattice.IsBottom (default : BoolAndLattice) := by
  rintro ⟨_ | _⟩ <;> rfl

/-- `BoolOrLattice()` holds `false`, its bottom. -/
theorem BoolOrLattice.isBottom_default : Lattice.IsBottom (default : BoolOrLattice) := by
  rintro ⟨_ | _⟩ <;> rfl

/-- The empty set is the bottom of the union. -/
theorem SetUnionLattice.isBottom_default {T : Type} [DecidableEq T] :
    Lattice.IsBottom (default : SetUnionLattice T) := by
  intro s
  have hempty : (default : SetUnionLattice T).members = ∅ :=
    Set.eq_empty_of_forall_notMem fun x hx => absurd hx List.not_mem_nil
  rw [SetUnionLattice.beq_iff, SetUnionLattice.members_join, hempty]
  exact Set.empty_union s.members

/-- The empty intersection lattice is a bottom only if there is nothing to intersect. -/
theorem SetIntersectLattice.isBottom_default_iff {T : Type} [DecidableEq T] :
    Lattice.IsBottom (default : SetIntersectLattice T) ↔ IsEmpty T := by
  constructor
  · intro h
    refine ⟨fun x => ?_⟩
    have hs := h ⟨⟨[x], List.nodup_singleton x⟩⟩
    rw [SetIntersectLattice.beq_iff, SetIntersectLattice.members_join] at hs
    have hx : x ∈ (default : SetIntersectLattice T).members := by
      refine (hs.ge ?_ : _ ∧ _).1
      exact List.mem_singleton_self x
    exact absurd hx List.not_mem_nil
  · intro _ s
    rw [SetIntersectLattice.beq_iff]
    exact Set.ext fun x => isEmptyElim x

/-- A pair is the bottom if both components are. -/
theorem PairLattice.isBottom_iff {L R : Type} [Lattice L] [Lattice R] [LawfulLattice L]
    [LawfulLattice R] {b : PairLattice L R} :
    Lattice.IsBottom b ↔ Lattice.IsBottom b.p_.1 ∧ Lattice.IsBottom b.p_.2 := by
  constructor
  · intro h
    exact ⟨fun x => (PairLattice.beq_iff.mp (h ⟨(x, b.p_.2)⟩)).1,
      fun y => (PairLattice.beq_iff.mp (h ⟨(b.p_.1, y)⟩)).2⟩
  · rintro ⟨h₁, h₂⟩ x
    exact PairLattice.beq_iff.mpr ⟨h₁ x.p_.1, h₂ x.p_.2⟩

/-- A default array is the bottom if its elements are, or if there are none. -/
theorem ArrayLattice.isBottom_default_iff {T : Type} [Lattice T] [Inhabited T] {n : ℕ} :
    Lattice.IsBottom (default : ArrayLattice T n) ↔
      n = 0 ∨ Lattice.IsBottom (default : T) := by
  have hjoin : ∀ (x : ArrayLattice T n) (i : Fin n),
      (Lattice.join default x).xs_ i = Lattice.join default (x.xs_ i) :=
    fun x i => ArrayLattice.join_apply default x i
  constructor
  · intro h
    refine or_iff_not_imp_left.mpr fun hn x => ?_
    have hx := ArrayLattice.beq_iff.mp (h ⟨fun _ => x⟩) ⟨0, Nat.pos_of_ne_zero hn⟩
    rwa [hjoin] at hx
  · rintro (rfl | h) x
    · exact ArrayLattice.beq_iff.mpr fun i => i.elim0
    · refine ArrayLattice.beq_iff.mpr fun i => ?_
      rw [hjoin]
      exact h (x.xs_ i)

/-- The empty vector is the bottom, whatever the elements are. -/
theorem VectorLattice.isBottom_default {T : Type} [Lattice T] [LawfulLattice T] :
    Lattice.IsBottom (default : VectorLattice T) := by
  intro x
  have hjoin : Lattice.join (default : VectorLattice T) x = x := by
    obtain ⟨_ | ⟨y, ys⟩⟩ := x <;> rfl
  rw [hjoin]
  exact BEq.rfl

/-- The empty map is the bottom, whatever the values are. -/
theorem MapLattice.isBottom_default {K V : Type} [DecidableEq K] [Lattice V]
    [LawfulLattice V] : Lattice.IsBottom (default : MapLattice K V) := by
  intro x
  rw [MapLattice.beq_iff_denote, MapLattice.denote_join]
  exact bot_sup_eq x.denote

/-- A timestamped value is the bottom if its timestamp and its value are, over timestamps that can
be compared. -/
theorem TimestampLattice.isBottom_iff {T L : Type} [Lattice T] [Less T] [Lattice L]
    [LawfulLattice T] [LawfulLess T] [LawfulLattice L] (hT : TotallyOrdered T)
    {b : TimestampLattice T L} :
    Lattice.IsBottom b ↔ Lattice.IsBottom b.timestamp ∧ Lattice.IsBottom b.value := by
  have : Std.Total (α := Lattice.Class T) (· ≤ ·) := hT.total_class
  have hle : ∀ x : TimestampLattice T L,
      (Lattice.join b x == x) = true ↔ b.stamped ≤ x.stamped := by
    intro x
    rw [TimestampLattice.beq_iff_stamped, TimestampLattice.stamped_join, sup_eq_right]
  rw [Lattice.isBottom_iff_cls (b := b.timestamp), Lattice.isBottom_iff_cls (b := b.value)]
  constructor
  · intro h
    refine ⟨fun t => ?_, fun l => ?_⟩
    · rcases Stamped.le_iff.mp ((hle ⟨(t, b.value)⟩).mp (h _)) with hlt | ⟨heq, -⟩
      · exact hlt.le
      · exact heq.le
    · rcases Stamped.le_iff.mp ((hle ⟨(b.timestamp, l)⟩).mp (h _)) with hlt | ⟨-, hl⟩
      · exact absurd hlt (lt_irrefl _)
      · exact hl
  · rintro ⟨ht, hl⟩ x
    refine (hle x).mpr (Stamped.le_iff.mpr ?_)
    rcases (ht x.timestamp).lt_or_eq with hlt | heq
    · exact .inl hlt
    · exact .inr ⟨heq, hl x.value⟩

/-! ### The syntax of lattice types -/

/-- The timestamp types: the totally ordered base lattices. -/
inductive TimestampType : Type 1
  | max (T : Type) [LinearOrder T] [Inhabited T]
  | min (T : Type) [LinearOrder T] [Inhabited T]
  | boolAnd
  | boolOr

/-- The lattice types built by nesting the lattices of the library. -/
inductive LatticeType : Type 1
  | max (T : Type) [LinearOrder T] [Inhabited T]
  | min (T : Type) [LinearOrder T] [Inhabited T]
  | boolAnd
  | boolOr
  | setUnion (T : Type) [DecidableEq T]
  | setIntersect (T : Type) [DecidableEq T]
  | pair (l r : LatticeType)
  | array (t : LatticeType) (n : ℕ)
  | vector (t : LatticeType)
  | map (K : Type) [DecidableEq K] (v : LatticeType)
  | timestamp (t : TimestampType) (l : LatticeType)

namespace TimestampType

/-- The type that the syntax stands for. -/
def carrier : TimestampType → Type
  | max T => MaxLattice T
  | min T => MinLattice T
  | boolAnd => BoolAndLattice
  | boolOr => BoolOrLattice

instance lattice : (t : TimestampType) → Lattice t.carrier
  | max T => inferInstanceAs (Lattice (MaxLattice T))
  | min T => inferInstanceAs (Lattice (MinLattice T))
  | boolAnd => inferInstanceAs (Lattice BoolAndLattice)
  | boolOr => inferInstanceAs (Lattice BoolOrLattice)

instance less : (t : TimestampType) → Less t.carrier
  | max T => inferInstanceAs (Less (MaxLattice T))
  | min T => inferInstanceAs (Less (MinLattice T))
  | boolAnd => inferInstanceAs (Less BoolAndLattice)
  | boolOr => inferInstanceAs (Less BoolOrLattice)

/-- The default constructor. -/
instance defaultConstructor : (t : TimestampType) → Inhabited t.carrier
  | max T => inferInstanceAs (Inhabited (MaxLattice T))
  | min T => inferInstanceAs (Inhabited (MinLattice T))
  | boolAnd => inferInstanceAs (Inhabited BoolAndLattice)
  | boolOr => inferInstanceAs (Inhabited BoolOrLattice)

/-- Value-initialisation gives the end of the order where joins start. -/
def StartsAtBottom : TimestampType → Prop
  | max T => ∀ x : T, default ≤ x
  | min T => ∀ x : T, x ≤ default
  | boolAnd => True
  | boolOr => True

/-- The timestamp types of the syntax are those of the grammar. -/
theorem baseTimestamp (t : TimestampType) :
    BaseTimestamp t.carrier t.lattice t.less := by
  cases t with
  | max T => exact .max T
  | min T => exact .min T
  | boolAnd => exact .boolAnd
  | boolOr => exact .boolOr

/-- The condition on the type, for the types of timestamps. -/
theorem isBottom_default_iff (t : TimestampType) :
    Lattice.IsBottom (default : t.carrier) ↔ t.StartsAtBottom := by
  cases t with
  | max T => exact MaxLattice.isBottom_iff
  | min T => exact MinLattice.isBottom_iff
  | boolAnd => exact iff_of_true BoolAndLattice.isBottom_default trivial
  | boolOr => exact iff_of_true BoolOrLattice.isBottom_default trivial

end TimestampType

namespace LatticeType

/-- The type that the syntax stands for. -/
def carrier : LatticeType → Type
  | max T => MaxLattice T
  | min T => MinLattice T
  | boolAnd => BoolAndLattice
  | boolOr => BoolOrLattice
  | setUnion T => SetUnionLattice T
  | setIntersect T => SetIntersectLattice T
  | pair l r => PairLattice l.carrier r.carrier
  | array t n => ArrayLattice t.carrier n
  | vector t => VectorLattice t.carrier
  | map K v => MapLattice K v.carrier
  | timestamp t l => TimestampLattice t.carrier l.carrier

/-- Its `operator==` and `join`. -/
instance lattice : (c : LatticeType) → Lattice c.carrier
  | max T => inferInstanceAs (Lattice (MaxLattice T))
  | min T => inferInstanceAs (Lattice (MinLattice T))
  | boolAnd => inferInstanceAs (Lattice BoolAndLattice)
  | boolOr => inferInstanceAs (Lattice BoolOrLattice)
  | setUnion T => inferInstanceAs (Lattice (SetUnionLattice T))
  | setIntersect T => inferInstanceAs (Lattice (SetIntersectLattice T))
  | pair l r =>
      let _ := l.lattice
      let _ := r.lattice
      inferInstanceAs (Lattice (PairLattice l.carrier r.carrier))
  | array t n =>
      let _ := t.lattice
      inferInstanceAs (Lattice (ArrayLattice t.carrier n))
  | vector t =>
      let _ := t.lattice
      inferInstanceAs (Lattice (VectorLattice t.carrier))
  | map K v =>
      let _ := v.lattice
      inferInstanceAs (Lattice (MapLattice K v.carrier))
  | timestamp t l =>
      let _ := l.lattice
      inferInstanceAs (Lattice (TimestampLattice t.carrier l.carrier))

/-- Its default constructor. -/
instance defaultConstructor : (c : LatticeType) → Inhabited c.carrier
  | max T => inferInstanceAs (Inhabited (MaxLattice T))
  | min T => inferInstanceAs (Inhabited (MinLattice T))
  | boolAnd => inferInstanceAs (Inhabited BoolAndLattice)
  | boolOr => inferInstanceAs (Inhabited BoolOrLattice)
  | setUnion T => inferInstanceAs (Inhabited (SetUnionLattice T))
  | setIntersect T => inferInstanceAs (Inhabited (SetIntersectLattice T))
  | pair l r =>
      let _ := l.defaultConstructor
      let _ := r.defaultConstructor
      inferInstanceAs (Inhabited (PairLattice l.carrier r.carrier))
  | array t n =>
      let _ := t.defaultConstructor
      inferInstanceAs (Inhabited (ArrayLattice t.carrier n))
  | vector t => inferInstanceAs (Inhabited (VectorLattice t.carrier))
  | map K v => inferInstanceAs (Inhabited (MapLattice K v.carrier))
  | timestamp t l =>
      let _ := l.defaultConstructor
      inferInstanceAs (Inhabited (TimestampLattice t.carrier l.carrier))

/-- The condition on a lattice type, by how it is built: below a `MaxLattice` or
`MinLattice` value-initialisation gives the least or greatest value, an intersection
lattice has no elements to lose, and pairs, arrays and timestamped values are built from
types that meet the condition. Vectors and maps start empty, whatever they hold. -/
def StartsAtBottom : LatticeType → Prop
  | max T => ∀ x : T, default ≤ x
  | min T => ∀ x : T, x ≤ default
  | boolAnd => True
  | boolOr => True
  | setUnion _ => True
  | setIntersect T => IsEmpty T
  | pair l r => l.StartsAtBottom ∧ r.StartsAtBottom
  | array t n => n = 0 ∨ t.StartsAtBottom
  | vector _ => True
  | map _ _ => True
  | timestamp t l => t.StartsAtBottom ∧ l.StartsAtBottom

/-- The types of the syntax are the nested lattice types. -/
theorem nested (c : LatticeType) : Nested c.carrier c.lattice := by
  induction c with
  | max T => exact .max T
  | min T => exact .min T
  | boolAnd => exact .boolAnd
  | boolOr => exact .boolOr
  | setUnion T => exact .setUnion T
  | setIntersect T => exact .setIntersect T
  | pair l r ihl ihr => exact .pair ihl ihr
  | array t n ih => exact .array n ih
  | vector t ih => exact .vector ih
  | map K v ih => exact .map K ih
  | timestamp t l ih => exact .timestamp t.baseTimestamp ih

instance lawful (c : LatticeType) : LawfulLattice c.carrier := c.nested.lawful

/-- **What is default-constructed is a bottom** exactly under the condition, by induction on
the type. -/
theorem isBottom_default_iff (c : LatticeType) :
    Lattice.IsBottom (default : c.carrier) ↔ c.StartsAtBottom := by
  induction c with
  | max T => exact MaxLattice.isBottom_iff
  | min T => exact MinLattice.isBottom_iff
  | boolAnd => exact iff_of_true BoolAndLattice.isBottom_default trivial
  | boolOr => exact iff_of_true BoolOrLattice.isBottom_default trivial
  | setUnion T => exact iff_of_true SetUnionLattice.isBottom_default trivial
  | setIntersect T => exact SetIntersectLattice.isBottom_default_iff
  | pair l r ihl ihr => exact PairLattice.isBottom_iff.trans (and_congr ihl ihr)
  | array t n ih => exact ArrayLattice.isBottom_default_iff.trans (or_congr_right ih)
  | vector t _ => exact iff_of_true VectorLattice.isBottom_default trivial
  | map K v _ => exact iff_of_true MapLattice.isBottom_default trivial
  | timestamp t l ih =>
      obtain ⟨_, _, htotal⟩ := t.baseTimestamp.lawful
      exact (TimestampLattice.isBottom_iff htotal).trans
        (and_congr t.isBottom_default_iff ih)

end LatticeType

/-! ### Accumulating into a default value -/

/-- The recommendation of `lattice.h`, and what it is for. -/
structure DefaultIsBottom (c : LatticeType) : Prop where
  /-- Joining any `x` into the default-constructed value gives `x`. -/
  bottom : ∀ x : c.carrier, (Lattice.join default x == x) = true
  /-- Accumulating values into it gives the join of exactly these values. -/
  accumulates : ∀ (x : c.carrier) (xs : List c.carrier),
    (Lattice.accumulate default (x :: xs) == Lattice.accumulate x xs) = true

/-- **When default construction gives the bottom**, for every lattice type built by nesting:
exactly under the condition on how the type is built. This is about the types that have a
bottom; one that has none does not meet the condition either, and nothing is expected of its
default. -/
theorem startsAtBottom_iff (c : LatticeType) : DefaultIsBottom c ↔ c.StartsAtBottom := by
  rw [← c.isBottom_default_iff]
  constructor
  · intro h
    exact h.bottom
  · intro h
    exact ⟨h, h.accumulate⟩

/-- The values of the type `int`. -/
abbrev CInt := {x : ℤ // -2 ^ 31 ≤ x ∧ x < 2 ^ 31}

/-- `int()`. -/
instance instInhabitedCInt : Inhabited CInt := ⟨⟨0, by decide, by decide⟩⟩

/-- `MaxLattice<int>` has a bottom, which is the smallest `int`, and starts at `0`: a
default-constructed maximum absorbs `-1`. -/
theorem maxInt_starts_above_bottom :
    Lattice.IsBottom (⟨⟨-2 ^ 31, by decide, by decide⟩⟩ : (LatticeType.max CInt).carrier) ∧
      (Lattice.join default (⟨⟨-1, by decide, by decide⟩⟩ : MaxLattice CInt)).x_.val = 0 ∧
      ¬ DefaultIsBottom (.max CInt) := by
  refine ⟨MaxLattice.isBottom_iff.mpr fun x => x.property.1, by decide, fun h => ?_⟩
  have hbeq := MaxLattice.beq_iff.mp (h.bottom ⟨⟨-1, by decide, by decide⟩⟩)
  exact absurd hbeq (by decide)

end LatticeFlow
