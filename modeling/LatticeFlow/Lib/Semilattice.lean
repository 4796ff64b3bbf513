import Mathlib.Data.Prod.Lex
import Mathlib.Order.Lattice

/-!
# Stamped Values and Merge Trees

Two general constructions over Mathlib's join semilattices.

* `Stamped T A` is the set of pairs of a stamp and a value, ordered lexicographically.
  When the stamps are totally ordered it is a join semilattice: the larger stamp wins
  outright, and values are joined only under equal stamps.
* `MergeTree α` is a way of merging a finite collection of values: a binary tree whose
  leaves are the values and whose shape is the order and grouping of the merges.

## Main results

* `Stamped.sup_of_lt`, `Stamped.sup_of_gt`, `Stamped.sup_of_eq`: the three cases of the
  join.
* `MergeTree.eval_value_le_iff`: a merge of stamped values joins those under the largest
  stamp.
* `MergeTree.eval_eq_of_leaves`: in a join semilattice the result of a merge tree depends
  only on which values stand at its leaves.
-/

universe u v

/-- A value together with a stamp. -/
@[ext] structure Stamped (T : Type u) (A : Type v) where
  stamp : T
  value : A

namespace Stamped

variable {T : Type u} {A : Type v}

/-- The lexicographic order: smaller stamp, or equal stamps and smaller value. -/
instance [PartialOrder T] [PartialOrder A] : PartialOrder (Stamped T A) :=
  PartialOrder.lift (fun x => toLex (x.stamp, x.value)) fun x y h => by
    have h' : (x.stamp, x.value) = (y.stamp, y.value) := h
    exact Stamped.ext (congrArg Prod.fst h') (congrArg Prod.snd h')

/-- The order is lexicographic. -/
theorem le_iff [PartialOrder T] [PartialOrder A] {x y : Stamped T A} :
    x ≤ y ↔ x.stamp < y.stamp ∨ x.stamp = y.stamp ∧ x.value ≤ y.value :=
  Prod.Lex.toLex_le_toLex

variable [SemilatticeSup T] [Std.Total (α := T) (· ≤ ·)] [SemilatticeSup A]

omit [SemilatticeSup A] in
/-- Stamps of which neither is smaller are equal. -/
theorem stamp_eq_of_not_lt {x y : Stamped T A} (h₁ : ¬ x.stamp < y.stamp)
    (h₂ : ¬ y.stamp < x.stamp) : x.stamp = y.stamp := by
  rcases total_of (· ≤ ·) x.stamp y.stamp with h | h
  · exact h.eq_of_not_lt h₁
  · exact (h.eq_of_not_lt h₂).symm

open Classical in
/-- The join under totally ordered stamps. -/
noncomputable instance : SemilatticeSup (Stamped T A) where
  sup x y :=
    if x.stamp < y.stamp then y else if y.stamp < x.stamp then x
    else ⟨x.stamp, x.value ⊔ y.value⟩
  le_sup_left x y := by
    split_ifs with h₁ h₂
    · exact le_iff.mpr (Or.inl h₁)
    · exact le_rfl
    · exact le_iff.mpr (Or.inr ⟨rfl, le_sup_left⟩)
  le_sup_right x y := by
    split_ifs with h₁ h₂
    · exact le_rfl
    · exact le_iff.mpr (Or.inl h₂)
    · exact le_iff.mpr (Or.inr ⟨(stamp_eq_of_not_lt h₁ h₂).symm, le_sup_right⟩)
  sup_le x y z hx hy := by
    split_ifs with h₁ h₂
    · exact hy
    · exact hx
    · rcases le_iff.mp hx with hx | ⟨hxs, hxv⟩
      · exact le_iff.mpr (Or.inl hx)
      · rcases le_iff.mp hy with hy | ⟨-, hyv⟩
        · exact absurd (hxs ▸ hy) h₂
        · exact le_iff.mpr (Or.inr ⟨hxs, sup_le hxv hyv⟩)

/-- Of two different stamps the larger one wins, here the right one. -/
theorem sup_of_lt {x y : Stamped T A} (h : x.stamp < y.stamp) : x ⊔ y = y :=
  if_pos h

/-- And here the left one. -/
theorem sup_of_gt {x y : Stamped T A} (h : y.stamp < x.stamp) : x ⊔ y = x :=
  (if_neg h.not_gt).trans (if_pos h)

/-- Under equal stamps the values are joined. -/
theorem sup_of_eq {x y : Stamped T A} (h : x.stamp = y.stamp) :
    x ⊔ y = ⟨x.stamp, x.value ⊔ y.value⟩ :=
  (if_neg h.not_lt).trans (if_neg h.not_gt)

end Stamped

/-- An order and grouping of merges: the values are at the leaves. -/
inductive MergeTree (α : Type u)
  | leaf (x : α)
  | node (l r : MergeTree α)

namespace MergeTree

variable {α : Type u} {β : Type v}

/-- The merged values, from left to right. -/
def leaves : MergeTree α → List α
  | leaf x => [x]
  | node l r => l.leaves ++ r.leaves

/-- Carry out the merges. -/
def eval (join : α → α → α) : MergeTree α → α
  | leaf x => x
  | node l r => join (l.eval join) (r.eval join)

/-- The result of a merge tree lies below exactly the common upper bounds of its
leaves. -/
theorem eval_le_iff [SemilatticeSup α] {t : MergeTree α} {z : α} :
    t.eval (· ⊔ ·) ≤ z ↔ ∀ x ∈ t.leaves, x ≤ z := by
  induction t with
  | leaf x => simp [eval, leaves]
  | node l r ihl ihr =>
      simp only [eval, leaves, sup_le_iff, ihl, ihr, List.mem_append]
      constructor
      · rintro ⟨hl, hr⟩ x (hx | hx)
        · exact hl x hx
        · exact hr x hx
      · intro h
        exact ⟨fun x hx => h x (Or.inl hx), fun x hx => h x (Or.inr hx)⟩

/-- The leaves lie below the result. -/
theorem le_eval [SemilatticeSup α] {t : MergeTree α} {x : α} (hx : x ∈ t.leaves) :
    x ≤ t.eval (· ⊔ ·) :=
  eval_le_iff.mp le_rfl x hx

/-- **Order, grouping and repetition do not matter** in a join semilattice. -/
theorem eval_eq_of_leaves [SemilatticeSup α] {s t : MergeTree α}
    (h : ∀ x, x ∈ s.leaves ↔ x ∈ t.leaves) : s.eval (· ⊔ ·) = t.eval (· ⊔ ·) := by
  refine eq_of_forall_ge_iff fun z => ?_
  rw [eval_le_iff, eval_le_iff]
  exact forall_congr' fun x => by rw [h x]

/-- Merge trees of images. -/
def map (f : α → β) : MergeTree α → MergeTree β
  | leaf x => leaf (f x)
  | node l r => node (l.map f) (r.map f)

/-- The leaves of a tree, with a function applied to each. -/
theorem leaves_map (f : α → β) (t : MergeTree α) : (t.map f).leaves = t.leaves.map f := by
  induction t with
  | leaf x => rfl
  | node l r ihl ihr => simp [map, leaves, ihl, ihr]

/-- A map that carries one merge to the other carries the results along. -/
theorem eval_map {f : α → β} {join : α → α → α} {join' : β → β → β}
    (hf : ∀ x y, f (join x y) = join' (f x) (f y)) (t : MergeTree α) :
    f (t.eval join) = (t.map f).eval join' := by
  induction t with
  | leaf x => rfl
  | node l r ihl ihr => rw [eval, hf, ihl, ihr, map, eval]

/-! ### Merging stamped values -/

section Stamped

variable {T : Type u} {A : Type v} [SemilatticeSup T] [Std.Total (α := T) (· ≤ ·)]
  [SemilatticeSup A]

/-- Some leaf carries the stamp of the result. -/
theorem exists_stamp_eq (t : MergeTree (Stamped T A)) :
    ∃ x ∈ t.leaves, x.stamp = (t.eval (· ⊔ ·)).stamp := by
  induction t with
  | leaf x => exact ⟨x, List.mem_singleton_self x, rfl⟩
  | node l r ihl ihr =>
      obtain ⟨x, hx, hxl⟩ := ihl
      obtain ⟨y, hy, hyr⟩ := ihr
      simp only [eval, leaves, List.mem_append]
      by_cases hlt : (l.eval (· ⊔ ·)).stamp < (r.eval (· ⊔ ·)).stamp
      · rw [Stamped.sup_of_lt hlt]
        exact ⟨y, .inr hy, hyr⟩
      by_cases hgt : (r.eval (· ⊔ ·)).stamp < (l.eval (· ⊔ ·)).stamp
      · rw [Stamped.sup_of_gt hgt]
        exact ⟨x, .inl hx, hxl⟩
      · rw [Stamped.sup_of_eq (Stamped.stamp_eq_of_not_lt hlt hgt)]
        exact ⟨x, .inl hx, hxl⟩

/-- **Only the values under the largest stamp are joined.** -/
theorem eval_value_le_iff {t : MergeTree (Stamped T A)} {v : A} :
    (t.eval (· ⊔ ·)).value ≤ v ↔
      ∀ x ∈ t.leaves, x.stamp = (t.eval (· ⊔ ·)).stamp → x.value ≤ v := by
  constructor
  · intro hv x hx hstamp
    rcases Stamped.le_iff.mp (le_eval hx) with hlt | ⟨-, hle⟩
    · exact absurd hstamp hlt.ne
    · exact hle.trans hv
  · intro h
    -- The result lies below the largest stamp with the value `v`.
    have hle : t.eval (· ⊔ ·) ≤ ⟨(t.eval (· ⊔ ·)).stamp, v⟩ := by
      refine eval_le_iff.mpr fun x hx => Stamped.le_iff.mpr ?_
      rcases Stamped.le_iff.mp (le_eval hx) with hlt | ⟨heq, -⟩
      · exact .inl hlt
      · exact .inr ⟨heq, h x hx heq⟩
    rcases Stamped.le_iff.mp hle with hlt | ⟨-, hv⟩
    · exact absurd hlt (lt_irrefl _)
    · exact hv

end Stamped

end MergeTree
