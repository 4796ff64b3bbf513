import LatticeFlow.MapLattice

/-!
# Runs of Map Lattices

Any number of `MapLattice<K, V>` objects start empty and are changed by `put` and by
`join`s of one object into another. This module says what they hold after a whole run.
The iteration order of a hash map is unspecified and may change whenever the map does, so
after every operation each map may be any reordering of the computed one.

`Reaches ops i k v` says that a `put` of `v` at `k` reached the object `i` in the run
`ops`: it was made on `i`, or on an object that was joined into `i` later on, directly or
through others.

## Main results

* `mapLattice_holds_puts`: a key is present exactly if a `put` of it reached the object,
  and its value is the join of the values of these `put`s. In a tombstoned set a deleted
  element stays deleted wherever the deletion reaches.
-/

universe u v w

open LatticeFlow.Lattice (cls)

namespace LatticeFlow

/-- `TombstonedSetUnionLattice<T>`: each element with its tombstone. -/
abbrev TombstonedSetUnionLattice (T : Type u) := MapLattice T BoolOrLattice

/-- An operation on a family of map lattices: `put(key, val)` on object `i`, or
`join` of object `j` into object `i`. -/
inductive MapOp (ι : Type w) (K : Type u) (V : Type v)
  | put (i : ι) (key : K) (val : V)
  | join (i j : ι)

section Runs

variable {ι : Type w} {K : Type u} {V : Type v} [DecidableEq ι] [DecidableEq K] [Lattice V]

/-- The objects after an operation. -/
def MapOp.apply (s : ι → MapLattice K V) : MapOp ι K V → ι → MapLattice K V
  | put i key val => Function.update s i ((s i).put key val)
  | join i j => Function.update s i (Lattice.join (s i) (s j))

/-- The entry of object `i` at `k` is one the operation is about. -/
def MapOp.Mentions (s : ι → MapLattice K V) (i : ι) (k : K) : MapOp ι K V → Prop
  | put i' key _ => i = i' ∧ k = key
  | join i' j => i = i' ∧ ((s j).get? k).isSome = true

omit [DecidableEq K] [Lattice V] in
/-- The two maps have the same entries, perhaps in another iteration order. -/
def MapLattice.Reordered (m m' : MapLattice K V) : Prop :=
  m.kvs_.entries.Perm m'.kvs_.entries

/-- One operation of a run, after which each map has some iteration order. -/
def MapStep (s : ι → MapLattice K V) (op : MapOp ι K V) (s' : ι → MapLattice K V) : Prop :=
  ∀ i, (op.apply s i).Reordered (s' i)

/-- The objects after a run that starts with all of them empty. -/
inductive MapRun : List (MapOp ι K V) → (ι → MapLattice K V) → Prop
  | start : MapRun [] fun _ => MapLattice.empty
  | step {ops : List (MapOp ι K V)} {s s' : ι → MapLattice K V} {op : MapOp ι K V} :
      MapRun ops s → MapStep s op s' → MapRun (ops ++ [op]) s'

omit [DecidableEq ι] [DecidableEq K] [Lattice V] in
/-- A `put` of `v` at `k` has reached object `i`: it was made on `i`, or it had reached an
object when that one was joined into `i`. -/
inductive Reaches : List (MapOp ι K V) → ι → K → V → Prop
  | put {ops : List (MapOp ι K V)} {i : ι} {k : K} {v : V} :
      Reaches (ops ++ [.put i k v]) i k v
  | join {ops : List (MapOp ι K V)} {i j : ι} {k : K} {v : V} :
      Reaches ops j k v → Reaches (ops ++ [.join i j]) i k v
  | keep {ops : List (MapOp ι K V)} {op : MapOp ι K V} {i : ι} {k : K} {v : V} :
      Reaches ops i k v → Reaches (ops ++ [op]) i k v

/-! ### One step -/

omit [Lattice V] in
/-- Lookups do not depend on the iteration order. -/
theorem MapLattice.Reordered.get?_eq {m m' : MapLattice K V} (h : m.Reordered m') (k : K) :
    m.get? k = m'.get? k :=
  AList.perm_lookup h

/-- What a put does to the entries of all objects. -/
theorem MapStep.get?_put {s s' : ι → MapLattice K V} {i : ι} {key : K} {val : V}
    (h : MapStep s (.put i key val) s') (j : ι) (k : K) :
    (s' j).get? k =
      if j = i ∧ k = key then joinEntry ((s i).get? key) (some val) else (s j).get? k := by
  rw [← (h j).get?_eq, MapOp.apply, Function.update_apply]
  by_cases hj : j = i
  · subst hj
    rw [if_pos rfl, MapLattice.lookup_put]
    simp
  · simp [hj]

/-- What a join does to the entries of all objects. -/
theorem MapStep.get?_join {s s' : ι → MapLattice K V} {i₁ i₂ : ι}
    (h : MapStep s (.join i₁ i₂) s') (j : ι) (k : K) :
    (s' j).get? k =
      if j = i₁ then joinEntry ((s i₁).get? k) ((s i₂).get? k) else (s j).get? k := by
  rw [← (h j).get?_eq, MapOp.apply, Function.update_apply]
  split_ifs
  · exact MapLattice.lookup_join (s i₁) (s i₂) k
  · rfl

/-- **Frame**: an entry the operation is not about stays as it is. -/
theorem MapStep.get?_of_not_mentions {s s' : ι → MapLattice K V} {op : MapOp ι K V}
    (h : MapStep s op s') {i : ι} {k : K} (hop : ¬ op.Mentions s i k) :
    (s' i).get? k = (s i).get? k := by
  cases op with
  | put i' key val =>
      rw [h.get?_put]
      exact if_neg hop
  | join i' j =>
      rw [h.get?_join]
      split_ifs with hi
      · subst hi
        have hnone : (s j).get? k = none := by
          simpa [MapOp.Mentions] using hop
        rw [hnone]
        cases (s i).get? k <;> rfl
      · rfl

omit [DecidableEq ι] [DecidableEq K] [Lattice V] in
/-- In a run without operations no value gets anywhere. -/
theorem not_reaches_nil {i : ι} {k : K} {v : V} : ¬ Reaches [] i k v := by
  intro h
  generalize hops : ([] : List (MapOp ι K V)) = ops at h
  cases h <;> simp at hops

omit [DecidableEq ι] [DecidableEq K] [Lattice V] in
/-- **What one more operation makes reach an object**: its own value, or what had reached
the object that it joins. -/
theorem reaches_append_iff {ops : List (MapOp ι K V)} {op : MapOp ι K V} {i : ι} {k : K}
    {v : V} :
    Reaches (ops ++ [op]) i k v ↔
      Reaches ops i k v ∨ op = .put i k v ∨ ∃ j, op = .join i j ∧ Reaches ops j k v := by
  constructor
  · intro h
    generalize hops : ops ++ [op] = ops' at h
    cases h with
    | put =>
        obtain ⟨-, hop⟩ := List.append_inj' hops rfl
        exact .inr (.inl (List.singleton_inj.mp hop))
    | join h =>
        obtain ⟨rfl, hop⟩ := List.append_inj' hops rfl
        exact .inr (.inr ⟨_, List.singleton_inj.mp hop, h⟩)
    | keep h =>
        obtain ⟨rfl, -⟩ := List.append_inj' hops rfl
        exact .inl h
  · rintro (h | rfl | ⟨j, rfl, h⟩)
    · exact .keep h
    · exact .put
    · exact .join h

/-! ### Whole runs -/

omit [DecidableEq ι] [DecidableEq K] [Lattice V] in
/-- Finitely many values reach an object. -/
theorem exists_reached (ops : List (MapOp ι K V)) (i : ι) (k : K) :
    ∃ vs : List V, ∀ v, v ∈ vs ↔ Reaches ops i k v := by
  classical
  induction ops using List.reverseRecOn generalizing i with
  | nil => exact ⟨[], fun v => by simp [not_reaches_nil]⟩
  | append_singleton ops op ih =>
      obtain ⟨vs, hvs⟩ := ih i
      cases op with
      | put i' key val =>
          refine ⟨if i = i' ∧ k = key then vs ++ [val] else vs, fun v => ?_⟩
          simp only [reaches_append_iff, MapOp.put.injEq, reduceCtorEq, false_and, exists_false,
            or_false]
          split_ifs with h
          · simp [hvs, h.1, h.2, eq_comm]
          · rw [hvs, or_iff_left fun hv => h ⟨hv.1.symm, hv.2.1.symm⟩]
      | join i' j =>
          obtain ⟨ws, hws⟩ := ih j
          refine ⟨if i = i' then vs ++ ws else vs, fun v => ?_⟩
          simp only [reaches_append_iff, MapOp.join.injEq, reduceCtorEq, false_or]
          split_ifs with h
          · simp [hvs, hws, h]
          · simp [hvs, Ne.symm h]

variable [LawfulLattice V]

/-- The invariant: the entries of the objects are the least upper bounds of the values
that reached them, where an absent entry is `⊥`. -/
theorem MapRun.toClass_le_iff {ops : List (MapOp ι K V)} {s : ι → MapLattice K V}
    (h : MapRun ops s) (i : ι) (k : K) (c : OptionClass V) :
    toClass ((s i).get? k) ≤ c ↔ ∀ v, Reaches ops i k v → (cls v : OptionClass V) ≤ c := by
  induction h generalizing i with
  | start => simp [not_reaches_nil]
  | @step ops s s' op _ hstep ih =>
      cases op with
      | put i' key val =>
          simp only [hstep.get?_put, reaches_append_iff, MapOp.put.injEq, reduceCtorEq,
            false_and, exists_false, or_false]
          split_ifs with hi
          · obtain ⟨rfl, rfl⟩ := hi
            rw [toClass_joinEntry, toClass_some, sup_le_iff, ih]
            constructor
            · rintro ⟨hle, hval⟩ v (hv | ⟨-, -, rfl⟩)
              · exact hle v hv
              · exact hval
            · intro hle
              exact ⟨fun v hv => hle v (.inl hv), hle val (.inr ⟨rfl, rfl, rfl⟩)⟩
          · rw [ih]
            refine forall_congr' fun v => ?_
            rw [or_iff_left fun hv => hi ⟨hv.1.symm, hv.2.1.symm⟩]
      | join i' j =>
          simp only [hstep.get?_join, reaches_append_iff, MapOp.join.injEq, reduceCtorEq,
            false_or]
          split_ifs with hi
          · subst hi
            rw [toClass_joinEntry, sup_le_iff, ih, ih]
            constructor
            · rintro ⟨hl, hr⟩ v (hv | ⟨_, ⟨-, rfl⟩, hv⟩)
              · exact hl v hv
              · exact hr v hv
            · intro hle
              exact ⟨fun v hv => hle v (.inl hv),
                fun v hv => hle v (.inr ⟨j, ⟨rfl, rfl⟩, hv⟩)⟩
          · rw [ih]
            refine forall_congr' fun v => ?_
            have hno : ¬ ∃ l, (i' = i ∧ j = l) ∧ Reaches ops l k v := by
              rintro ⟨l, ⟨hij, -⟩, -⟩
              exact hi hij.symm
            rw [or_iff_left hno]

/-- A key is present exactly if a `put` of it reached the object. -/
theorem MapRun.isSome_iff {ops : List (MapOp ι K V)} {s : ι → MapLattice K V}
    (h : MapRun ops s) (i : ι) (k : K) :
    ((s i).get? k).isSome = true ↔ ∃ v, Reaches ops i k v := by
  have hle := h.toClass_le_iff i k ⊥
  cases hget : (s i).get? k with
  | none =>
      rw [hget] at hle
      have hnot : ∀ v, ¬ Reaches ops i k v := fun v hv =>
        WithBot.coe_ne_bot (le_bot_iff.mp (hle.mp le_rfl v hv))
      simp [hnot]
  | some x =>
      rw [hget] at hle
      have hex : ∃ v, Reaches ops i k v := by
        by_contra hno
        have hbot : toClass (some x) ≤ (⊥ : OptionClass V) :=
          hle.mpr fun v hv => absurd ⟨v, hv⟩ hno
        exact WithBot.coe_ne_bot (le_bot_iff.mp hbot)
      simp [hex]

/-- The value of a key is the join of the values that reached it, listed in any order and
with any repetitions. -/
theorem MapRun.value_eq {ops : List (MapOp ι K V)} {s : ι → MapLattice K V}
    (h : MapRun ops s) {i : ι} {k : K} {v : V} {vs : List V}
    (hvs : ∀ w, w ∈ v :: vs ↔ Reaches ops i k w) :
    ∃ x, (s i).get? k = some x ∧ (x == Lattice.accumulate v vs) = true := by
  have hsome := (h.isSome_iff i k).mpr ⟨v, (hvs v).mp List.mem_cons_self⟩
  obtain ⟨x, hx⟩ := Option.isSome_iff_exists.mp hsome
  refine ⟨x, hx, Lattice.beq_accumulate_iff.mpr fun c => ?_⟩
  have hle := h.toClass_le_iff i k c
  rw [hx, toClass_some, WithBot.coe_le_coe] at hle
  rw [hle, ← List.forall_mem_cons (p := fun w => cls w ≤ c)]
  simp only [hvs, WithBot.coe_le_coe]

/-- `put(k, v)` is joining the one-entry map. -/
theorem MapLattice.put_eq_join (m : MapLattice K V) (k : K) (v : V) :
    (m.put k v == Lattice.join m (empty.put k v)) = true := by
  rw [beq_iff_denote, denote_put, denote_join]

/-- What the objects of a run hold: per key the join of everything put there. -/
structure HoldsPuts (ops : List (MapOp ι K V)) (s : ι → MapLattice K V) : Prop where
  /-- A key is present exactly if a `put` of it reached the object. -/
  present : ∀ i k, ((s i).get? k).isSome = true ↔ ∃ v, Reaches ops i k v
  /-- The values that reached the object can be listed. -/
  finite : ∀ i k, ∃ vs : List V, ∀ v, v ∈ vs ↔ Reaches ops i k v
  /-- The value is their join, in whatever order and how often they are listed. -/
  value : ∀ i k v vs, (∀ w, w ∈ v :: vs ↔ Reaches ops i k w) →
    ∃ x, (s i).get? k = some x ∧ (x == Lattice.accumulate v vs) = true
  /-- The next operation leaves the entries alone that it does not mention. -/
  frame : ∀ op s', MapStep s op s' → ∀ i k, ¬ op.Mentions s i k →
    (s' i).get? k = (s i).get? k
  /-- The next `put` may as well join a one-entry map. -/
  put_eq_join : ∀ i k v,
    ((s i).put k v == Lattice.join (s i) (MapLattice.empty.put k v)) = true

/-- Each object holds, after each run, what has reached it. -/
theorem MapRun.holdsPuts {ops : List (MapOp ι K V)} {s : ι → MapLattice K V}
    (h : MapRun ops s) : HoldsPuts ops s where
  present := h.isSome_iff
  finite := exists_reached ops
  value _ _ _ _ hvs := h.value_eq hvs
  frame _ _ hstep _ _ hop := hstep.get?_of_not_mentions hop
  put_eq_join i := (s i).put_eq_join

omit [LawfulLattice V] [Lattice V] in
/-- **A tombstone stays** wherever the deletion has reached. -/
theorem MapRun.tombstone {ops : List (MapOp ι K BoolOrLattice)}
    {s : ι → TombstonedSetUnionLattice K} (h : MapRun ops s) {i : ι} {x : K}
    (hx : Reaches ops i x ⟨true⟩) : (s i).get? x = some ⟨true⟩ := by
  obtain ⟨b, hb⟩ := Option.isSome_iff_exists.mp ((h.isSome_iff i x).mpr ⟨⟨true⟩, hx⟩)
  have hle := (h.toClass_le_iff i x (cls b : OptionClass BoolOrLattice)).mp
  rw [hb, toClass_some] at hle
  have htrue : Lattice.le (⟨true⟩ : BoolOrLattice) b = true :=
    Lattice.cls_le_iff.mp (WithBot.coe_le_coe.mp (hle le_rfl _ hx))
  obtain ⟨_ | _⟩ := b
  · cases htrue
  · exact hb

end Runs

/-- **A map lattice holds per key the join of everything put there.** In every run of
`put`s and `join`s on objects that start empty, under any iteration orders, the entries
are the joins of the `put`s that reached them. In a tombstoned set, an element deleted by
`put(x, true)` is deleted in every replica the deletion has reached. -/
theorem mapLattice_holds_puts {ι : Type w} {K : Type u} {V : Type v} [DecidableEq ι]
    [DecidableEq K] [Lattice V] [LawfulLattice V] :
    (∀ (ops : List (MapOp ι K V)) (s : ι → MapLattice K V), MapRun ops s →
      HoldsPuts ops s) ∧
    ∀ (ops : List (MapOp ι K BoolOrLattice)) (s : ι → TombstonedSetUnionLattice K),
      MapRun ops s → ∀ i x, Reaches ops i x ⟨true⟩ → (s i).get? x = some ⟨true⟩ :=
  ⟨fun _ _ h => h.holdsPuts, fun _ _ h _ _ hx => h.tombstone hx⟩

/-- Two replicas of a tombstoned set: `x` is deleted on the first, the first is joined
into the second, and a late insert on the second does not bring `x` back. -/
theorem mapLattice_holds_puts_deleted_element :
    let ops : List (MapOp Bool ℕ BoolOrLattice) :=
      [.put false 7 ⟨true⟩, .join true false, .put true 7 ⟨false⟩]
    ∃ s : Bool → TombstonedSetUnionLattice ℕ, MapRun ops s ∧ HoldsPuts ops s ∧
      (s true).get? 7 = some ⟨true⟩ := by
  intro ops
  have hrefl : ∀ (s : Bool → MapLattice ℕ BoolOrLattice) (op : MapOp Bool ℕ BoolOrLattice),
      MapStep s op (op.apply s) := fun s op i => List.Perm.refl _
  have hrun : MapRun ops _ :=
    ((MapRun.start.step (hrefl _ (.put false 7 ⟨true⟩))).step
      (hrefl _ (.join true false))).step (hrefl _ (.put true 7 ⟨false⟩))
  have hx : Reaches ((([] : List (MapOp Bool ℕ BoolOrLattice)) ++ [.put false 7 ⟨true⟩]) ++
      [.join true false] ++ [.put true 7 ⟨false⟩]) true 7 ⟨true⟩ :=
    .keep (.join .put)
  exact ⟨_, hrun, mapLattice_holds_puts.1 ops _ hrun,
    (mapLattice_holds_puts (V := BoolOrLattice)).2 ops _ hrun true 7 hx⟩

end LatticeFlow
