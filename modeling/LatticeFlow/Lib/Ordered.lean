import Mathlib.Data.List.Basic
import Mathlib.Order.Lattice

/-!
# Ordered Maps and Lexicographic Comparison

A sorted associative container over an arbitrary comparison `lt`: the list of its entries
in the order of their keys. Two keys are the same for the container when neither is
smaller than the other; the container never asks whether they are equal. A search walks
past the smaller keys and then tests the first key that is not smaller, which is what a
search tree does with the same comparison.

Under the strict order of a linear order the container is a map (`find_update`). Under a
comparison that holds of no pair every key is the same key (`find_update_of_never`).

`lexicographicalCompare` compares two sequences element by element with a given
comparison. Over a linear order it is the lexicographic order of lists.

## Main results

* `OrderedMap.find_update`: lookups after an update, over a linear order.
* `OrderedMap.mem_keys_update`: the keys after an update, over a linear order.
* `OrderedMap.Sorted.find_eq_some_iff`: a search in a sorted map finds its entries.
* `OrderedMap.Sorted.find_erase`: lookups after an entry has been removed.
* `OrderedMap.find_update_of_never`: under a comparison that never holds, every search
  finds the entry updated last.
* `lexicographicalCompare_iff_lt`: lexicographic comparison over a linear order.
-/

universe u v

/-- The entries of an ordered map, in the order of their keys. -/
abbrev OrderedMap (K : Type u) (V : Type v) := List (K × V)

namespace OrderedMap

variable {K : Type u} {V : Type v}

/-- Search for `k`: skip the smaller keys, then the next key is the one sought unless it
is larger. -/
def find (lt : K → K → Bool) (k : K) : OrderedMap K V → Option V
  | [] => none
  | (k', v) :: m => if lt k' k then find lt k m else if lt k k' then none else some v

/-- Change the entry of `k`, which is inserted at its place if it is not there: `f` gets
the old value if there is one. -/
def update (lt : K → K → Bool) (k : K) (f : Option V → V) : OrderedMap K V → OrderedMap K V
  | [] => [(k, f none)]
  | (k', v) :: m =>
      if lt k' k then (k', v) :: update lt k f m
      else if lt k k' then (k, f none) :: (k', v) :: m
      else (k', f (some v)) :: m

/-- Remove the entry of `k`, if there is one. -/
def erase (lt : K → K → Bool) (k : K) (m : OrderedMap K V) : OrderedMap K V :=
  m.filter fun e => lt e.1 k || lt k e.1

/-- The keys in order. -/
def keys (m : OrderedMap K V) : List K :=
  m.map Prod.fst

/-- **A comparison that never holds makes all keys one key.** What is stored under one key
is found under every other. -/
theorem find_update_of_never {lt : K → K → Bool} (hlt : ∀ a b, lt a b = false) (k j : K)
    (f : Option V → V) (m : OrderedMap K V) :
    find lt j (update lt k f m) = some (f (find lt k m)) := by
  cases m with
  | nil => simp [update, find, hlt]
  | cons e m => simp [update, find, hlt]

/-- A search then finds the first entry. -/
theorem find_of_never {lt : K → K → Bool} (hlt : ∀ a b, lt a b = false) (k : K)
    (m : OrderedMap K V) : find lt k m = m.head?.map Prod.snd := by
  cases m with
  | nil => rfl
  | cons e m => simp [find, hlt]

/-- The first entry is the one that is changed. -/
theorem update_cons_of_never {lt : K → K → Bool} (hlt : ∀ a b, lt a b = false) (k : K)
    (f : Option V → V) (e : K × V) (m : OrderedMap K V) :
    update lt k f (e :: m) = (e.1, f (some e.2)) :: m := by
  simp [update, hlt]

/-- All entries are removed at once. -/
theorem erase_of_never {lt : K → K → Bool} (hlt : ∀ a b, lt a b = false) (k : K)
    (m : OrderedMap K V) : erase lt k m = [] := by
  simp [erase, hlt]

variable [LinearOrder K]

/-- The comparison of a linear order. -/
def less (a b : K) : Bool := decide (a < b)

/-- **An ordered map over a linear order is a map.** No assumption on the list is needed:
the search and the update walk the same way. -/
theorem find_update (k j : K) (f : Option V → V) (m : OrderedMap K V) :
    find less j (update less k f m) =
      if j = k then some (f (find less k m)) else find less j m := by
  induction m with
  | nil =>
      by_cases hj : j = k
      · subst hj
        simp [update, find, less]
      · rcases lt_or_gt_of_ne hj with h | h
        · simp [update, find, less, hj, h, h.not_gt]
        · simp [update, find, less, hj, h]
  | cons e m ih =>
      obtain ⟨k', v⟩ := e
      simp only [update, find, less, decide_eq_true_eq] at ih ⊢
      rcases lt_trichotomy k' k with h | h | h
      · -- Both walks pass `k'`, or the search stops there before reaching `k`.
        rw [if_pos h]
        simp only [find, less, decide_eq_true_eq]
        by_cases hj : j = k
        · subst hj
          rw [if_pos h, ih, if_pos rfl, if_pos rfl, if_pos h]
        · rw [if_neg hj, ih, if_neg hj]
      · subst h
        rw [if_neg (lt_irrefl _), if_neg (lt_irrefl _)]
        simp only [find, less, decide_eq_true_eq]
        by_cases hj : j = k'
        · subst hj
          simp
        · rcases lt_or_gt_of_ne hj with h | h
          · simp [hj, h, h.not_gt]
          · simp [hj, h]
      · rw [if_neg h.not_gt, if_pos h]
        simp only [find, less, decide_eq_true_eq]
        by_cases hj : j = k
        · subst hj
          simp [h, h.not_gt]
        · rcases lt_or_gt_of_ne hj with h' | h'
          · -- A key below `k` is below `k'` too: both searches fail.
            simp [hj, h', h'.not_gt, (h'.trans h), (h'.trans h).not_gt]
          · simp [hj, h']

/-- The keys after an update. -/
theorem mem_keys_update (k j : K) (f : Option V → V) (m : OrderedMap K V) :
    j ∈ keys (update less k f m) ↔ j = k ∨ j ∈ keys m := by
  induction m with
  | nil => simp [update, keys]
  | cons e m ih =>
      obtain ⟨k', v⟩ := e
      simp only [keys] at ih ⊢
      rcases lt_trichotomy k' k with h | h | h
      · simp only [update, less, decide_eq_true_eq, if_pos h, List.map_cons, List.mem_cons, ih]
        exact or_left_comm
      · subst h
        simp [update, less]
      · simp [update, less, h, h.not_gt]

/-- The keys stand in their order, each once. -/
def Sorted (m : OrderedMap K V) : Prop :=
  (keys m).Pairwise (· < ·)

/-- The empty map is sorted. -/
theorem sorted_nil : Sorted ([] : OrderedMap K V) :=
  List.Pairwise.nil

/-- A map is sorted if its first key is the smallest one and the rest is sorted. -/
theorem sorted_cons {e : K × V} {m : OrderedMap K V} :
    Sorted (e :: m) ↔ (∀ k ∈ keys m, e.1 < k) ∧ Sorted m :=
  List.pairwise_cons

/-- An update keeps the map sorted. -/
theorem Sorted.update {m : OrderedMap K V} (hm : Sorted m) (k : K) (f : Option V → V) :
    Sorted (m.update less k f) := by
  induction m with
  | nil => exact sorted_cons.mpr ⟨by simp [keys], sorted_nil⟩
  | cons e m ih =>
      obtain ⟨k', v⟩ := e
      obtain ⟨hlt, hm⟩ := sorted_cons.mp hm
      rcases lt_trichotomy k' k with h | h | h
      · simp only [OrderedMap.update, less, decide_eq_true_eq, if_pos h]
        refine sorted_cons.mpr ⟨fun j hj => ?_, ih hm⟩
        rcases (mem_keys_update k j f m).mp hj with rfl | hj
        · exact h
        · exact hlt j hj
      · subst h
        simp only [OrderedMap.update, less, decide_eq_true_eq, if_neg (lt_irrefl k')]
        exact sorted_cons.mpr ⟨hlt, hm⟩
      · simp only [OrderedMap.update, less, decide_eq_true_eq, if_neg h.not_gt, if_pos h]
        refine sorted_cons.mpr ⟨fun j hj => ?_, sorted_cons.mpr ⟨hlt, hm⟩⟩
        rcases List.mem_cons.mp hj with rfl | hj
        · exact h
        · exact h.trans (hlt j hj)

/-- So does an erasure. -/
theorem Sorted.erase {m : OrderedMap K V} (hm : Sorted m) (k : K) : Sorted (m.erase less k) :=
  hm.sublist (List.filter_sublist.map Prod.fst)

/-- **A search in a sorted map finds its entries.** -/
theorem Sorted.find_eq_some_iff {m : OrderedMap K V} (hm : Sorted m) {k : K} {v : V} :
    m.find less k = some v ↔ (k, v) ∈ m := by
  induction m with
  | nil => simp [find]
  | cons e m ih =>
      obtain ⟨k', v'⟩ := e
      obtain ⟨hlt, hm⟩ := sorted_cons.mp hm
      -- A key that is not larger than the first one is not among the others.
      have hnot : ∀ {j}, j ≤ k' → ∀ w, (j, w) ∉ m := fun hj w hmem =>
        (hlt _ (List.mem_map_of_mem hmem)).not_ge hj
      rcases lt_trichotomy k' k with h | h | h
      · simp [find, less, h, h.ne', ih hm]
      · subst h
        simp [find, less, hnot le_rfl, eq_comm]
      · simp [find, less, h, h.not_gt, h.ne, hnot h.le]

/-- An update of an entry that is removed has no effect. -/
theorem erase_update (k : K) (f : Option V → V) (m : OrderedMap K V) :
    (m.update less k f).erase less k = m.erase less k := by
  induction m with
  | nil => simp [OrderedMap.update, OrderedMap.erase, less]
  | cons e m ih =>
      obtain ⟨k', v⟩ := e
      rcases lt_trichotomy k' k with h | h | h
      · simpa [OrderedMap.update, OrderedMap.erase, less, h] using ih
      · simp [OrderedMap.update, OrderedMap.erase, less, h]
      · simp [OrderedMap.update, OrderedMap.erase, less, h, h.not_gt]

/-- The other entries are left. -/
theorem mem_erase {m : OrderedMap K V} {k : K} {e : K × V} :
    e ∈ m.erase less k ↔ e ∈ m ∧ e.1 ≠ k := by
  simp [OrderedMap.erase, less, lt_or_lt_iff_ne]

/-- Lookups after an entry has been removed. -/
theorem Sorted.find_erase {m : OrderedMap K V} (hm : Sorted m) (k j : K) :
    (m.erase less k).find less j = if j = k then none else m.find less j := by
  refine Option.ext fun v => ?_
  rw [(hm.erase k).find_eq_some_iff, mem_erase]
  split_ifs with h
  · simp [h]
  · rw [hm.find_eq_some_iff]
    simp [h]

/-- The entries after an update of a sorted map. -/
theorem Sorted.mem_update {m : OrderedMap K V} (hm : Sorted m) {k : K} {f : Option V → V}
    {j : K} {v : V} :
    (j, v) ∈ m.update less k f ↔
      if j = k then v = f (m.find less k) else (j, v) ∈ m := by
  rw [← (hm.update k f).find_eq_some_iff, find_update]
  split_ifs
  · rw [Option.some.injEq, eq_comm]
  · exact hm.find_eq_some_iff

end OrderedMap

/-! ### Lexicographic comparison -/

variable {α : Type u}

/-- Compare two sequences element by element: the first difference decides, and a proper
beginning is smaller. -/
def lexicographicalCompare (comp : α → α → Bool) : List α → List α → Bool
  | [], [] => false
  | [], _ :: _ => true
  | _ :: _, [] => false
  | x :: xs, y :: ys =>
      if comp x y then true
      else if comp y x then false
      else lexicographicalCompare comp xs ys

/-- Over the comparison of a linear order this is the lexicographic order. -/
theorem lexicographicalCompare_iff_lt [LinearOrder α] {comp : α → α → Bool}
    (hcomp : ∀ x y, comp x y = true ↔ x < y) {xs ys : List α} :
    lexicographicalCompare comp xs ys = true ↔ xs < ys := by
  induction xs generalizing ys with
  | nil =>
      cases ys with
      | nil => simp [lexicographicalCompare]
      | cons y ys => simp [lexicographicalCompare]
  | cons x xs ih =>
      cases ys with
      | nil => simp [lexicographicalCompare]
      | cons y ys =>
          simp only [lexicographicalCompare, hcomp, List.cons_lt_cons_iff]
          rcases lt_trichotomy x y with h | rfl | h
          · simp [h]
          · simp [ih]
          · simp [h, h.not_gt, h.ne']
