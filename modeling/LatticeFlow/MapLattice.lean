import LatticeFlow.Containers

/-!
# The Map Lattice

This module models `map_lattice.h`. A `MapLattice<K, V>` wraps a hash map whose values
are lattices; a key that only one of two joined maps has keeps its value, a key that both
have gets the join. `put` binds a key or joins into its binding, and `join` does the same
for every entry of the other map in iteration order.

The reading of a map lattice in a semilattice is the family of its optional entries
(`MapLattice.denote`), where an absent key is `⊥`.

## Main results

* `MapLattice.lookup_put`, `MapLattice.lookup_join`: `put` and `join` key by key.
* `lawful_mapLattice`: the map lattice is lawful when its values are. In particular
  `join` gives equal results on equal maps, whatever their iteration orders.
-/

universe u v

namespace LatticeFlow

/-- `MapLattice<K, V>`: hash maps to a lattice. -/
structure MapLattice (K : Type u) (V : Type v) where
  kvs_ : UnorderedMap K V

namespace MapLattice

variable {K : Type u} {V : Type v} [DecidableEq K]

/-- The empty map, which is the default-constructed one. -/
def empty : MapLattice K V := ⟨∅⟩

/-- `get(key)`, that is `kvs_.at(key)`; `none` when the key is absent and `at` throws. -/
def get? (m : MapLattice K V) (key : K) : Option V :=
  m.kvs_.lookup key

@[simp] theorem get?_empty (k : K) : (empty : MapLattice K V).get? k = none := rfl

variable [Lattice V]

/-- `put(key, val)`: insert the binding if the key is absent, otherwise join `val` into
the existing one. -/
def put (m : MapLattice K V) (key : K) (val : V) : MapLattice K V :=
  match m.kvs_.lookup key with
  | none => ⟨m.kvs_.insert key val⟩
  | some old => ⟨m.kvs_.insert key (Lattice.join old val)⟩

/-- `join`: the entries of the other map are inserted or joined one by one, in its
iteration order. -/
instance : Lattice (MapLattice K V) where
  beq l r := l.kvs_.beq r.kvs_
  join l r := r.kvs_.foldl put l

/-- `put` at its own key. -/
theorem lookup_put_self (m : MapLattice K V) (k : K) (v : V) :
    (m.put k v).get? k = joinEntry (m.get? k) (some v) := by
  unfold put get?
  cases m.kvs_.lookup k with
  | none => exact AList.lookup_insert m.kvs_
  | some old => exact AList.lookup_insert m.kvs_

/-- `put` leaves every other key alone. -/
theorem lookup_put_ne (m : MapLattice K V) {k k' : K} (v : V) (h : k' ≠ k) :
    (m.put k v).get? k' = m.get? k' := by
  unfold put get?
  cases m.kvs_.lookup k with
  | none => exact AList.lookup_insert_ne h
  | some old => exact AList.lookup_insert_ne h

/-- A put joins the value into the entry of its key, and leaves the others alone. -/
theorem lookup_put (m : MapLattice K V) (k k' : K) (v : V) :
    (m.put k v).get? k' = if k' = k then joinEntry (m.get? k) (some v) else m.get? k' := by
  split_ifs with h
  · subst h
    exact lookup_put_self m k' v
  · exact lookup_put_ne m v h

/-- **`join` works key by key**, by the table in the header of the class. -/
theorem lookup_join (l r : MapLattice K V) (k : K) :
    (Lattice.join l r).get? k = joinEntry (l.get? k) (r.get? k) := by
  have h : (Lattice.join l r).get? k =
      (r.get? k).elim (l.get? k) fun v => joinEntry (l.get? k) (some v) :=
    UnorderedMap.lookup_foldl (g := get?) (f := fun x v => joinEntry x (some v))
      lookup_put_self (fun m k v k' hk => lookup_put_ne m v hk) l r.kvs_ k
  rw [h]
  cases r.get? k with
  | none => cases l.get? k <;> rfl
  | some v => rfl

/-- `operator==` compares the entries, key by key. -/
theorem beq_iff {l r : MapLattice K V} :
    (l == r) = true ↔ ∀ k, Option.Rel (fun a b => (a == b) = true) (l.get? k) (r.get? k) :=
  UnorderedMap.beq_iff

variable [LawfulLattice V]

/-- The map as a family of entries, with `⊥` at absent keys. -/
def denote (m : MapLattice K V) : K → OptionClass V :=
  fun k => toClass (m.get? k)

/-- `operator==` is equality of what the maps denote. -/
theorem beq_iff_denote {l r : MapLattice K V} :
    (l == r) = true ↔ l.denote = r.denote := by
  rw [beq_iff, funext_iff]
  exact forall_congr' fun k => toClass_eq_iff.symm

@[simp] theorem denote_empty : (empty : MapLattice K V).denote = ⊥ := rfl

@[simp] theorem denote_join (l r : MapLattice K V) :
    (Lattice.join l r).denote = l.denote ⊔ r.denote := by
  funext k
  rw [denote, lookup_join, toClass_joinEntry]
  rfl

/-- `put` joins the one-entry map. -/
theorem denote_put (m : MapLattice K V) (k : K) (v : V) :
    (m.put k v).denote = m.denote ⊔ ((empty : MapLattice K V).put k v).denote := by
  funext k'
  simp only [denote, Pi.sup_apply, lookup_put]
  split_ifs with h
  · subst h
    rw [toClass_joinEntry, get?_empty, toClass_joinEntry]
    simp
  · simp

end MapLattice

instance lawful_mapLattice {K : Type u} {V : Type v} [DecidableEq K] [Lattice V]
    [LawfulLattice V] : LawfulLattice (MapLattice K V) :=
  LawfulLattice.of_sup MapLattice.denote (fun _ _ => MapLattice.beq_iff_denote)
    MapLattice.denote_join

end LatticeFlow
