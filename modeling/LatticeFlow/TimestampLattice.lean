import Mathlib.Data.Fin.VecNotation
import LatticeFlow.Containers
import LatticeFlow.Lib.Semilattice

/-!
# The Timestamp Lattice

This module models `timestamp_lattice.h`: pairs of a timestamp and a value whose join
adopts the side with the larger timestamp outright and joins both components when
neither timestamp is smaller. The header offers this for totally ordered timestamps and
for partially ordered ones such as vector clocks.

For totally ordered timestamps the pairs are the stamped values of
`LatticeFlow.Lib.Semilattice`, and the lattice is lawful. For partially ordered ones the
join is not associative: an update with timestamp `a` merged with one at an incomparable
`b` survives in the result at `a ⊔ b`, but it is dropped if it meets an update at
`a ⊔ b` first. Two incomparable timestamps and two different values are all it takes.

## Main results

* `lawful_timestampLattice_of_total`: lawful under totally ordered timestamps.
* `timestampLattice_mergesInAnyOrder_iff`: the merges agree in every order and grouping
  exactly if the timestamps are totally ordered or the value lattice has one element.
* `timestampLattice_converges`: under totally ordered timestamps every merge ends with the
  largest timestamp and the join of the values that carry it.
-/

universe u v

open LatticeFlow.Lattice (cls)

namespace LatticeFlow

/-! ### Timestamps -/

/-- The requirement of the header on a timestamp type: `operator<` is the strict part of
the order that `join` induces. -/
class LawfulLess (T : Type u) [Lattice T] [Less T] : Prop where
  lt_iff : ∀ x y : T, Less.lt x y = true ↔ Lattice.le x y = true ∧ ¬ (x == y) = true

/-- Hand-written comparisons that agree with `join` provide a lawful `operator<`. -/
theorem AgreesWithJoin.lawfulLess {T : Type u} [Lattice T] [Comparisons T]
    (h : AgreesWithJoin T) : LawfulLess T where
  lt_iff x y := by
    rw [(h x y).1, Bool.and_eq_true, Bool.not_eq_true', ← Bool.not_eq_true]

instance {T : Type u} [LinearOrder T] : LawfulLess (MaxLattice T) :=
  agreesWithJoin_maxLattice.lawfulLess

instance {T : Type u} [LinearOrder T] : LawfulLess (MinLattice T) :=
  agreesWithJoin_minLattice.lawfulLess

instance : LawfulLess BoolAndLattice :=
  agreesWithJoin_boolAndLattice.lawfulLess

instance : LawfulLess BoolOrLattice :=
  agreesWithJoin_boolOrLattice.lawfulLess

/-- Any two values are comparable. -/
def TotallyOrdered (T : Type u) [Lattice T] : Prop :=
  ∀ x y : T, Lattice.le x y = true ∨ Lattice.le y x = true

/-- Comparable values have comparable classes. -/
theorem TotallyOrdered.total_class {T : Type u} [Lattice T] [LawfulLattice T]
    (h : TotallyOrdered T) : Std.Total (α := Lattice.Class T) (· ≤ ·) where
  total a b := by
    obtain ⟨x, rfl⟩ := Lattice.exists_cls a
    obtain ⟨y, rfl⟩ := Lattice.exists_cls b
    rw [Lattice.cls_le_iff, Lattice.cls_le_iff]
    exact h x y

/-- Any two maxima can be compared. -/
theorem totallyOrdered_maxLattice {T : Type u} [LinearOrder T] :
    TotallyOrdered (MaxLattice T) := by
  intro x y
  rw [MaxLattice.le_iff, MaxLattice.le_iff]
  exact le_total x.x_ y.x_

/-- Any two minima can be compared. -/
theorem totallyOrdered_minLattice {T : Type u} [LinearOrder T] :
    TotallyOrdered (MinLattice T) := by
  intro x y
  rw [MinLattice.le_iff, MinLattice.le_iff]
  exact le_total y.x_ x.x_

/-- The two truth values can be compared, under `and`. -/
theorem totallyOrdered_boolAndLattice : TotallyOrdered BoolAndLattice := by
  rintro ⟨_ | _⟩ ⟨_ | _⟩ <;> decide

/-- And under `or`. -/
theorem totallyOrdered_boolOrLattice : TotallyOrdered BoolOrLattice := by
  rintro ⟨_ | _⟩ ⟨_ | _⟩ <;> decide

/-- Vector clocks over `n` processes: `operator<` is the strict part of the order of the
array of counters. -/
instance vectorClockLess {n : ℕ} : Less (ArrayLattice (MaxLattice ℕ) n) where
  lt x y := Lattice.le x y && !(x == y)

instance {n : ℕ} : LawfulLess (ArrayLattice (MaxLattice ℕ) n) where
  lt_iff x y := by
    change (Lattice.le x y && !(x == y)) = true ↔ _
    rw [Bool.and_eq_true, Bool.not_eq_true', ← Bool.not_eq_true]

/-! ### The lattice -/

/-- `TimestampLattice<Timestamp, L>`: a timestamp and a value. -/
structure TimestampLattice (T : Type u) (L : Type v) where
  p_ : T × L

namespace TimestampLattice

variable {T : Type u} {L : Type v}

/-- The timestamp. -/
def timestamp (x : TimestampLattice T L) : T := x.p_.1

/-- The value. -/
def value (x : TimestampLattice T L) : L := x.p_.2

variable [Lattice T] [Less T] [Lattice L]

/-- `join`: adopt the other pair if its timestamp is larger, do nothing if it is smaller,
and join both components otherwise. -/
instance : Lattice (TimestampLattice T L) where
  beq l r := l.p_ == r.p_
  join l r :=
    if Less.lt l.timestamp r.timestamp then r
    else if Less.lt r.timestamp l.timestamp then l
    else ⟨(Lattice.join l.p_.1 r.p_.1, Lattice.join l.p_.2 r.p_.2)⟩

/-- `operator==` compares the timestamps and the values. -/
theorem beq_iff {l r : TimestampLattice T L} :
    (l == r) = true ↔
      (l.timestamp == r.timestamp) = true ∧ (l.value == r.value) = true :=
  Bool.and_eq_true_iff

/-- The side with the larger timestamp wins, here the right one. -/
theorem join_of_lt {l r : TimestampLattice T L}
    (h : Less.lt l.timestamp r.timestamp = true) : Lattice.join l r = r :=
  if_pos h

/-- And here the left one. -/
theorem join_of_gt {l r : TimestampLattice T L}
    (h : ¬ Less.lt l.timestamp r.timestamp = true)
    (h' : Less.lt r.timestamp l.timestamp = true) : Lattice.join l r = l :=
  (if_neg h).trans (if_pos h')

/-- Under timestamps of which none is smaller both components are joined. -/
theorem join_of_not_lt {l r : TimestampLattice T L}
    (h : ¬ Less.lt l.timestamp r.timestamp = true)
    (h' : ¬ Less.lt r.timestamp l.timestamp = true) :
    Lattice.join l r =
      ⟨(Lattice.join l.timestamp r.timestamp, Lattice.join l.value r.value)⟩ :=
  (if_neg h).trans (if_neg h')

end TimestampLattice

section Lawful

variable {T : Type u} {L : Type v} [Lattice T] [Less T] [Lattice L]
  [LawfulLattice T] [LawfulLess T]

/-- `operator<` on timestamps is the strict order of their classes. -/
theorem lt_iff_cls_lt {x y : T} : Less.lt x y = true ↔ cls x < cls y := by
  rw [LawfulLess.lt_iff, ← Lattice.cls_le_iff, ← Lattice.cls_eq_iff]
  exact lt_iff_le_and_ne.symm

/-- **A one-element value lattice**: only the timestamps count, and they are joined in
every case. -/
theorem lawful_timestampLattice_of_subsingleton (hL : ∀ x y : L, (x == y) = true) :
    LawfulLattice (TimestampLattice T L) := by
  refine LawfulLattice.of_sup (fun x => cls x.timestamp) (fun l r => ?_) (fun l r => ?_)
  · rw [TimestampLattice.beq_iff, Lattice.cls_eq_iff]
    exact and_iff_left (hL _ _)
  · by_cases hlt : Less.lt l.timestamp r.timestamp = true
    · rw [TimestampLattice.join_of_lt hlt]
      exact (sup_eq_right.mpr (lt_iff_cls_lt.mp hlt).le).symm
    by_cases hgt : Less.lt r.timestamp l.timestamp = true
    · rw [TimestampLattice.join_of_gt hlt hgt]
      exact (sup_eq_left.mpr (lt_iff_cls_lt.mp hgt).le).symm
    · rw [TimestampLattice.join_of_not_lt hlt hgt]
      rfl

variable [LawfulLattice L]

/-- A pair as a stamped value over the classes of its components. -/
def TimestampLattice.stamped (x : TimestampLattice T L) :
    Stamped (Lattice.Class T) (Lattice.Class L) :=
  ⟨cls x.timestamp, cls x.value⟩

omit [LawfulLess T] in
/-- `operator==` is equality of the stamped values. -/
theorem TimestampLattice.beq_iff_stamped {l r : TimestampLattice T L} :
    (l == r) = true ↔ l.stamped = r.stamped := by
  rw [beq_iff, stamped, stamped, Stamped.mk.injEq, Lattice.cls_eq_iff, Lattice.cls_eq_iff]

/-- **Totally ordered timestamps**: `join` is the join of stamped values. -/
theorem TimestampLattice.stamped_join [Std.Total (α := Lattice.Class T) (· ≤ ·)]
    (l r : TimestampLattice T L) :
    (Lattice.join l r).stamped = l.stamped ⊔ r.stamped := by
  by_cases hlt : Less.lt l.timestamp r.timestamp = true
  · rw [join_of_lt hlt]
    exact (Stamped.sup_of_lt (lt_iff_cls_lt.mp hlt)).symm
  by_cases hgt : Less.lt r.timestamp l.timestamp = true
  · rw [join_of_gt hlt hgt]
    exact (Stamped.sup_of_gt (lt_iff_cls_lt.mp hgt)).symm
  · rw [join_of_not_lt hlt hgt]
    rw [lt_iff_cls_lt] at hlt hgt
    have heq : l.stamped.stamp = r.stamped.stamp := Stamped.stamp_eq_of_not_lt hlt hgt
    rw [Stamped.sup_of_eq heq]
    refine Stamped.ext ?_ rfl
    change l.stamped.stamp ⊔ r.stamped.stamp = l.stamped.stamp
    rw [heq, sup_idem]

/-- The pairs are stamped values, so the lattice is lawful. -/
theorem lawful_timestampLattice_of_total (hT : TotallyOrdered T) :
    LawfulLattice (TimestampLattice T L) := by
  have : Std.Total (α := Lattice.Class T) (· ≤ ·) := hT.total_class
  exact LawfulLattice.of_sup TimestampLattice.stamped
    (fun _ _ => TimestampLattice.beq_iff_stamped) TimestampLattice.stamped_join

/-! ### Partially ordered timestamps -/

/-- **Associativity needs comparable timestamps.** At incomparable `a` and `b`, a value
`m` that is not below `l` survives the merge with `l` when it comes first and is lost
when `(a ⊔ b, l)` does. -/
theorem not_assoc_of_incomparable {a b : T} {l m : L} (hab : ¬ Lattice.le a b = true)
    (hba : ¬ Lattice.le b a = true) (hml : ¬ Lattice.le m l = true) :
    ∃ x y z : TimestampLattice T L,
      ¬ (Lattice.join x (Lattice.join y z) == Lattice.join (Lattice.join x y) z) = true := by
  rw [← Lattice.cls_le_iff] at hab hba hml
  let c : T := Lattice.join a b
  have hc : cls c = cls a ⊔ cls b := rfl
  have hac : Less.lt a c = true := by
    rw [lt_iff_cls_lt, hc]
    exact lt_of_le_not_ge le_sup_left fun h => hba (le_sup_right.trans h)
  have hbc : Less.lt b c = true := by
    rw [lt_iff_cls_lt, hc]
    exact lt_of_le_not_ge le_sup_right fun h => hab (le_sup_left.trans h)
  have hnab : ¬ Less.lt a b = true := fun h => hab (lt_iff_cls_lt.mp h).le
  have hnba : ¬ Less.lt b a = true := fun h => hba (lt_iff_cls_lt.mp h).le
  have hncc : ¬ Less.lt c c = true := fun h => lt_irrefl _ (lt_iff_cls_lt.mp h)
  let x : TimestampLattice T L := ⟨(a, m)⟩
  let y : TimestampLattice T L := ⟨(b, l)⟩
  let z : TimestampLattice T L := ⟨(c, l)⟩
  have hxy : Lattice.join x y = ⟨(c, Lattice.join m l)⟩ :=
    TimestampLattice.join_of_not_lt (l := x) (r := y) hnab hnba
  have hyz : Lattice.join y z = z := TimestampLattice.join_of_lt (l := y) (r := z) hbc
  have hxz : Lattice.join x z = z := TimestampLattice.join_of_lt (l := x) (r := z) hac
  have hxyz : Lattice.join (⟨(c, Lattice.join m l)⟩ : TimestampLattice T L) z =
      ⟨(Lattice.join c c, Lattice.join (Lattice.join m l) l)⟩ :=
    TimestampLattice.join_of_not_lt (l := ⟨(c, Lattice.join m l)⟩) (r := z) hncc hncc
  refine ⟨x, y, z, fun h => hml ?_⟩
  rw [hyz, hxz, hxy, hxyz, TimestampLattice.beq_iff] at h
  have hl : cls l = cls (Lattice.join (Lattice.join m l) l) := Lattice.cls_eq_iff.mpr h.2
  rw [hl, Lattice.cls_join, Lattice.cls_join]
  exact le_sup_left.trans le_sup_left

end Lawful

/-! ### Merging in any order -/

/-- Updates can be merged in any order and grouping: `join` is associative, commutative
and idempotent, and any two merge trees over the same updates agree. -/
structure MergesInAnyOrder (L : Type u) [Lattice L] : Prop where
  join_assoc : ∀ x y z : L,
    (Lattice.join x (Lattice.join y z) == Lattice.join (Lattice.join x y) z) = true
  join_comm : ∀ x y : L, (Lattice.join x y == Lattice.join y x) = true
  join_idem : ∀ x : L, (Lattice.join x x == x) = true
  eval_eq : ∀ s t : MergeTree L, s.leaves.Perm t.leaves →
    (s.eval Lattice.join == t.eval Lattice.join) = true

/-- A lawful lattice can be merged in any order: the merge trees are evaluated in the
semilattice of classes. -/
theorem LawfulLattice.mergesInAnyOrder {L : Type u} [Lattice L] [LawfulLattice L] :
    MergesInAnyOrder L where
  join_assoc := LawfulLattice.join_assoc
  join_comm := LawfulLattice.join_comm
  join_idem := LawfulLattice.join_idem
  eval_eq s t hst := by
    have hcls : ∀ t : MergeTree L, cls (t.eval Lattice.join) = (t.map cls).eval (· ⊔ ·) :=
      MergeTree.eval_map Lattice.cls_join
    rw [← Lattice.cls_eq_iff, hcls, hcls]
    refine MergeTree.eval_eq_of_leaves fun c => ?_
    rw [MergeTree.leaves_map, MergeTree.leaves_map]
    exact (hst.map cls).mem_iff

/-- **When timestamped updates can be merged in any order**: exactly if the timestamps
are totally ordered, or the value lattice has no two different values. -/
theorem timestampLattice_mergesInAnyOrder_iff {T : Type u} {L : Type v} [Lattice T]
    [Less T] [Lattice L] [LawfulLattice T] [LawfulLess T] [LawfulLattice L] :
    MergesInAnyOrder (TimestampLattice T L) ↔
      TotallyOrdered T ∨ ∀ x y : L, (x == y) = true := by
  constructor
  · intro h
    by_contra hcon
    obtain ⟨hT, hL⟩ := not_or.mp hcon
    simp only [TotallyOrdered, not_forall, not_or] at hT hL
    obtain ⟨a, b, hab, hba⟩ := hT
    obtain ⟨p, q, hpq⟩ := hL
    -- Of two different values one is not below the other.
    obtain ⟨l, m, hml⟩ : ∃ l m : L, ¬ Lattice.le m l = true := by
      by_contra hall
      simp only [not_exists, not_not] at hall
      exact hpq (LawfulLattice.isJoinSemilattice.le_antisymm p q (hall q p) (hall p q))
    obtain ⟨x, y, z, hxyz⟩ := not_assoc_of_incomparable hab hba hml
    exact hxyz (h.join_assoc x y z)
  · rintro (hT | hL)
    · have := lawful_timestampLattice_of_total (L := L) hT
      exact LawfulLattice.mergesInAnyOrder
    · have := lawful_timestampLattice_of_subsingleton (T := T) hL
      exact LawfulLattice.mergesInAnyOrder

/-- The characterisation at vector clocks of two processes, which are lawful timestamps
and not totally ordered: integers under `max` cannot be merged in any order there. -/
theorem vectorClock_not_mergesInAnyOrder :
    ¬ MergesInAnyOrder (TimestampLattice (ArrayLattice (MaxLattice ℕ) 2) (MaxLattice ℤ)) := by
  rw [timestampLattice_mergesInAnyOrder_iff]
  rintro (h | h)
  · exact absurd (h ⟨![⟨1⟩, ⟨0⟩]⟩ ⟨![⟨0⟩, ⟨1⟩]⟩) (by decide)
  · exact absurd (h ⟨0⟩ ⟨1⟩) (by decide)

/-- Three updates at the vector clocks `(1, 0)`, `(0, 1)` and `(1, 1)` give `0` when the
last two are merged first and `5` when the first two are. -/
theorem vectorClock_grouping_matters :
    let x : TimestampLattice (ArrayLattice (MaxLattice ℕ) 2) (MaxLattice ℤ) :=
      ⟨(⟨![⟨1⟩, ⟨0⟩]⟩, ⟨5⟩)⟩
    let y : TimestampLattice (ArrayLattice (MaxLattice ℕ) 2) (MaxLattice ℤ) :=
      ⟨(⟨![⟨0⟩, ⟨1⟩]⟩, ⟨0⟩)⟩
    let z : TimestampLattice (ArrayLattice (MaxLattice ℕ) 2) (MaxLattice ℤ) :=
      ⟨(⟨![⟨1⟩, ⟨1⟩]⟩, ⟨0⟩)⟩
    (Lattice.join x (Lattice.join y z)).value.get = 0 ∧
      (Lattice.join (Lattice.join x y) z).value.get = 5 ∧
      ¬ (Lattice.join x (Lattice.join y z) == Lattice.join (Lattice.join x y) z) = true := by
  decide

/-! ### What the merges converge to -/

/-- The values of a list of pairs that carry the timestamp `m`. -/
def TimestampLattice.valuesAt {T : Type u} {L : Type v} [Lattice T] (m : T)
    (xs : List (TimestampLattice T L)) : List L :=
  (xs.filter fun x => x.timestamp == m).map TimestampLattice.value

/-- The values at `m` are those that come with a timestamp equal to `m`. -/
theorem TimestampLattice.mem_valuesAt {T : Type u} {L : Type v} [Lattice T] {m : T}
    {xs : List (TimestampLattice T L)} {v : L} :
    v ∈ valuesAt m xs ↔ ∃ x ∈ xs, (x.timestamp == m) = true ∧ x.value = v := by
  simp only [valuesAt, List.mem_map, List.mem_filter, and_assoc]

/-- **What a timestamped register converges to**: merging the pairs of a list in any
order and grouping, with any repetitions, gives the largest timestamp `m` of the list and
the join of the values that carry it. -/
theorem timestampLattice_converges {T : Type u} {L : Type v} [Lattice T] [Less T]
    [Lattice L] [LawfulLattice T] [LawfulLess T] [LawfulLattice L] (hT : TotallyOrdered T)
    (xs : List (TimestampLattice T L)) (t : MergeTree (TimestampLattice T L))
    (ht : ∀ x, x ∈ t.leaves ↔ x ∈ xs) :
    ∃ m v vs, (∃ x ∈ xs, x.timestamp = m) ∧
      (∀ x ∈ xs, Lattice.le x.timestamp m = true) ∧
      TimestampLattice.valuesAt m xs = v :: vs ∧
      (t.eval Lattice.join == ⟨(m, Lattice.accumulate v vs)⟩) = true := by
  have : Std.Total (α := Lattice.Class T) (· ≤ ·) := hT.total_class
  have hleaves : ∀ y, y ∈ (t.map TimestampLattice.stamped).leaves ↔
      ∃ x ∈ xs, x.stamped = y := by
    intro y
    simp only [MergeTree.leaves_map, List.mem_map, ht]
  have heval : (t.eval Lattice.join).stamped =
      (t.map TimestampLattice.stamped).eval (· ⊔ ·) :=
    MergeTree.eval_map TimestampLattice.stamped_join t
  -- Some pair of the list carries the timestamp of the result, and none a larger one.
  obtain ⟨y, hy, hstamp⟩ := (t.map TimestampLattice.stamped).exists_stamp_eq
  obtain ⟨x, hx, rfl⟩ := (hleaves y).mp hy
  rw [← heval] at hstamp
  have hvalue : x.value ∈ TimestampLattice.valuesAt x.timestamp xs :=
    TimestampLattice.mem_valuesAt.mpr ⟨x, hx, BEq.rfl, rfl⟩
  obtain ⟨v, vs, hvs⟩ := List.exists_cons_of_ne_nil (List.ne_nil_of_mem hvalue)
  refine ⟨x.timestamp, v, vs, ⟨x, hx, rfl⟩, fun z hz => ?_, hvs, ?_⟩
  · have hle : z.stamped ≤ (t.eval Lattice.join).stamped := by
      rw [heval]
      exact MergeTree.le_eval ((hleaves _).mpr ⟨z, hz, rfl⟩)
    rw [← Lattice.cls_le_iff]
    rcases Stamped.le_iff.mp hle with hlt | ⟨heq, -⟩
    · exact (hlt.trans_eq hstamp.symm).le
    · exact (heq.trans hstamp.symm).le
  · refine TimestampLattice.beq_iff.mpr ⟨Lattice.cls_eq_iff.mp hstamp.symm, ?_⟩
    refine Lattice.beq_accumulate_iff.mpr fun c => ?_
    rw [← List.forall_mem_cons (p := fun w => cls w ≤ c), ← hvs]
    change (t.eval Lattice.join).stamped.value ≤ c ↔ _
    rw [heval, MergeTree.eval_value_le_iff, ← heval, ← hstamp]
    constructor
    · intro h w hw
      obtain ⟨z, hz, hzm, rfl⟩ := TimestampLattice.mem_valuesAt.mp hw
      exact h z.stamped ((hleaves _).mpr ⟨z, hz, rfl⟩) (Lattice.cls_eq_iff.mpr hzm)
    · intro h y hy hym
      obtain ⟨z, hz, rfl⟩ := (hleaves y).mp hy
      exact h z.value (TimestampLattice.mem_valuesAt.mpr
        ⟨z, hz, Lattice.cls_eq_iff.mp hym, rfl⟩)

/-- Four updates, two of them at the largest timestamp: merged as `((a, b), (c, (b, d)))`
with `b` used twice, the register ends with the larger of the two newest values. -/
theorem timestampLattice_converges_four_updates :
    let a : TimestampLattice (MaxLattice ℤ) (MaxLattice ℤ) := ⟨(⟨1⟩, ⟨9⟩)⟩
    let b : TimestampLattice (MaxLattice ℤ) (MaxLattice ℤ) := ⟨(⟨2⟩, ⟨-4⟩)⟩
    let c : TimestampLattice (MaxLattice ℤ) (MaxLattice ℤ) := ⟨(⟨-5⟩, ⟨7⟩)⟩
    let d : TimestampLattice (MaxLattice ℤ) (MaxLattice ℤ) := ⟨(⟨2⟩, ⟨-3⟩)⟩
    let t : MergeTree (TimestampLattice (MaxLattice ℤ) (MaxLattice ℤ)) :=
      .node (.node (.leaf a) (.leaf b)) (.node (.leaf c) (.node (.leaf b) (.leaf d)))
    ∃ m v vs, (∃ x ∈ [a, b, c, d], x.timestamp = m) ∧
      (∀ x ∈ [a, b, c, d], Lattice.le x.timestamp m = true) ∧
      TimestampLattice.valuesAt m [a, b, c, d] = v :: vs ∧
      (t.eval Lattice.join == ⟨(m, Lattice.accumulate v vs)⟩) = true := by
  intro a b c d t
  refine timestampLattice_converges totallyOrdered_maxLattice [a, b, c, d] t fun x => ?_
  simp only [t, MergeTree.leaves, List.cons_append, List.nil_append, List.mem_cons,
    List.not_mem_nil, or_false]
  tauto

end LatticeFlow
