import Mathlib.Data.List.AList
import Mathlib.Data.List.Infix

/-!
# Hash Containers

A hash map is a list of entries with distinct keys, a hash set a list of distinct
elements; the list is the **iteration order** of the container. That order is not part
of the container's value: equality (`UnorderedMap.beq`, `UnorderedSet.beq`) compares
sizes and looks every entry of one side up in the other, as the standard containers do,
and two containers that differ only in the order of their entries are equal.

Every operation picks some order for its result. A client whose results agree up to
equality on equal arguments therefore works for every iteration order.

## Main results

* `UnorderedMap.beq_iff`: equality is pointwise equality of the lookups.
* `UnorderedMap.lookup_foldl`: a loop that updates one key per entry of another map acts
  at each key on its own.
* `UnorderedSet.beq_iff`: equality is equality of the members.
-/

universe u v w

/-- A hash map from `K` to `V`: its entries, keys distinct, in iteration order. -/
abbrev UnorderedMap (K : Type u) (V : Type v) := AList fun _ : K => V

namespace UnorderedMap

variable {K : Type u} {V : Type v}

/-- The keys of a map that are all keys of a map of the same size are its keys. -/
theorem mem_iff_of_subset {m n : UnorderedMap K V}
    (hlen : m.entries.length = n.entries.length) (hsub : ∀ k, k ∈ m → k ∈ n) (k : K) :
    k ∈ m ↔ k ∈ n := by
  have hsp : m.keys.Subperm n.keys :=
    List.subperm_of_subset m.keys_nodup hsub
  have hle : n.keys.length ≤ m.keys.length := by
    simp only [AList.keys, List.keys, List.length_map]
    omega
  rw [AList.mem_keys, AList.mem_keys]
  exact (hsp.perm_of_length_le hle).mem_iff

variable [DecidableEq K]

/-- The number of entries with key `k`, at most one. -/
def count (m : UnorderedMap K V) (k : K) : ℕ :=
  if k ∈ m then 1 else 0

/-- Map equality: equal sizes, and every entry of the left map is found in the right one
with an equal value. -/
def beq [BEq V] (m n : UnorderedMap K V) : Bool :=
  m.entries.length == n.entries.length &&
    m.entries.all fun e => (n.lookup e.1).elim false fun v => e.2 == v

/-- A key is counted zero times exactly when its lookup fails. -/
theorem count_eq_zero {m : UnorderedMap K V} {k : K} :
    m.count k = 0 ↔ m.lookup k = none := by
  unfold count
  rw [AList.lookup_eq_none]
  split <;> simp_all

/-- **Map equality is pointwise**: the two lookups of every key both fail, or both
succeed with equal values. -/
theorem beq_iff [BEq V] {m n : UnorderedMap K V} :
    m.beq n = true ↔
      ∀ k, Option.Rel (fun a b => (a == b) = true) (m.lookup k) (n.lookup k) := by
  have hmem : ∀ {e : Σ _ : K, V}, e ∈ m.entries ↔ m.lookup e.1 = some e.2 := by
    intro e
    exact (List.mem_dlookup_iff m.nodupKeys (a := e.1) (b := e.2)).symm
  simp only [beq, Bool.and_eq_true, beq_iff_eq, List.all_eq_true]
  constructor
  · rintro ⟨hlen, hall⟩ k
    have hsub : ∀ k, k ∈ m → k ∈ n := by
      intro k hk
      obtain ⟨v, hv⟩ := Option.isSome_iff_exists.mp (AList.lookup_isSome.mpr hk)
      have := hall ⟨k, v⟩ (hmem.mpr hv)
      refine AList.lookup_isSome.mp ?_
      cases hn : n.lookup k with
      | none => simp [hn] at this
      | some w => rfl
    cases hm : m.lookup k with
    | none =>
        have hkn : n.lookup k = none :=
          AList.lookup_eq_none.mpr fun hk =>
            AList.lookup_eq_none.mp hm ((mem_iff_of_subset hlen hsub k).mpr hk)
        rw [hkn]
        exact Option.Rel.none
    | some v =>
        have := hall ⟨k, v⟩ (hmem.mpr hm)
        cases hn : n.lookup k with
        | none => simp [hn] at this
        | some w => exact Option.Rel.some (by simpa [hn] using this)
  · intro hrel
    have hiff : ∀ k, k ∈ m.keys ↔ k ∈ n.keys := by
      intro k
      rw [← AList.mem_keys, ← AList.mem_keys, ← AList.lookup_isSome, ← AList.lookup_isSome]
      have hr := hrel k
      generalize m.lookup k = x at hr ⊢
      generalize n.lookup k = y at hr ⊢
      cases hr <;> simp
    have hperm : m.keys.Perm n.keys :=
      (List.perm_ext_iff_of_nodup m.keys_nodup n.keys_nodup).mpr hiff
    refine ⟨by simpa [AList.keys, List.keys] using hperm.length_eq, fun e he => ?_⟩
    have hr := hrel e.1
    rw [hmem.mp he] at hr
    cases hn : n.lookup e.1 with
    | none => rw [hn] at hr; cases hr
    | some w =>
        rw [hn] at hr
        cases hr with
        | some h => exact h

/-- **A loop over the entries of `n` whose body touches only the entry's key** acts at
each key separately: the key is updated once if `n` has it and not at all otherwise. The
accumulator may be anything that can be looked up in. -/
theorem lookup_foldl {δ : Type w} {g : δ → K → Option V} {step : δ → K → V → δ}
    {f : Option V → V → Option V}
    (hself : ∀ d k v, g (step d k v) k = f (g d k) v)
    (hne : ∀ d k v k', k' ≠ k → g (step d k v) k' = g d k')
    (d : δ) (n : UnorderedMap K V) (k : K) :
    g (n.foldl step d) k = (n.lookup k).elim (g d k) (f (g d k)) := by
  obtain ⟨es, hes⟩ := n
  change g (es.foldl (fun d e => step d e.1 e.2) d) k =
    (es.dlookup k).elim (g d k) (f (g d k))
  induction es generalizing d with
  | nil => rfl
  | cons e es ih =>
      obtain ⟨k₁, v⟩ := e
      obtain ⟨hk₁, hes⟩ := List.nodupKeys_cons.mp hes
      rw [List.foldl_cons, ih _ hes]
      by_cases hk : k = k₁
      · subst hk
        rw [List.dlookup_cons_eq, List.dlookup_eq_none.mpr hk₁]
        exact hself d k v
      · have hcons : List.dlookup k (⟨k₁, v⟩ :: es) = List.dlookup k es :=
          List.dlookup_cons_ne es (⟨k₁, v⟩ : Σ _ : K, V) hk
        rw [hcons, hne d k₁ v k hk]

end UnorderedMap

/-- A hash set over `T`: its elements, all distinct, in iteration order. -/
structure UnorderedSet (T : Type u) where
  elems : List T
  nodup : elems.Nodup

namespace UnorderedSet

variable {T : Type u}

/-- The empty set. -/
instance : EmptyCollection (UnorderedSet T) := ⟨⟨[], List.nodup_nil⟩⟩

/-- Membership. -/
instance : Membership T (UnorderedSet T) := ⟨fun s x => x ∈ s.elems⟩

@[simp] theorem mem_mk {x : T} {l : List T} {h : l.Nodup} :
    x ∈ (⟨l, h⟩ : UnorderedSet T) ↔ x ∈ l := Iff.rfl

variable [DecidableEq T]

instance (x : T) (s : UnorderedSet T) : Decidable (x ∈ s) :=
  inferInstanceAs (Decidable (x ∈ s.elems))

/-- The number of elements equal to `x`, at most one. -/
def count (s : UnorderedSet T) (x : T) : ℕ :=
  if x ∈ s then 1 else 0

/-- Insert an element unless it is there already. -/
def insert (s : UnorderedSet T) (x : T) : UnorderedSet T where
  elems := s.elems.insert x
  nodup := s.nodup.insert

/-- Set equality: equal sizes, and every element of the left set is in the right one. -/
def beq (s t : UnorderedSet T) : Bool :=
  s.elems.length == t.elems.length && s.elems.all fun x => 0 < t.count x

/-- `count` is positive for the elements of the set. -/
theorem count_pos {s : UnorderedSet T} {x : T} : 0 < s.count x ↔ x ∈ s := by
  unfold count
  split <;> simp_all

@[simp] theorem mem_insert {s : UnorderedSet T} {x y : T} :
    x ∈ s.insert y ↔ x = y ∨ x ∈ s :=
  List.mem_insert_iff

/-- Inserting a list of elements one by one adds exactly these elements. -/
theorem mem_foldl_insert {s : UnorderedSet T} {xs : List T} {x : T} :
    x ∈ xs.foldl insert s ↔ x ∈ s ∨ x ∈ xs := by
  induction xs generalizing s with
  | nil => simp
  | cons y ys ih =>
      rw [List.foldl_cons, ih, mem_insert, List.mem_cons]
      tauto

/-- **Set equality is extensional.** -/
theorem beq_iff {s t : UnorderedSet T} : s.beq t = true ↔ ∀ x, x ∈ s ↔ x ∈ t := by
  simp only [beq, Bool.and_eq_true, beq_iff_eq, List.all_eq_true, decide_eq_true_eq, count_pos]
  constructor
  · rintro ⟨hlen, hsub⟩ x
    have hsp : s.elems.Subperm t.elems := List.subperm_of_subset s.nodup hsub
    exact (hsp.perm_of_length_le hlen.ge).mem_iff
  · intro h
    have hperm : s.elems.Perm t.elems :=
      (List.perm_ext_iff_of_nodup s.nodup t.nodup).mpr h
    exact ⟨hperm.length_eq, fun x hx => (h x).mp hx⟩

end UnorderedSet
