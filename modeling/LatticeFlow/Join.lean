import Mathlib.Data.Multiset.Bind
import LatticeFlow.Equijoin
import LatticeFlow.Lib.Ordered

/-!
# The Streaming Join

`Join<Push, Key, T, T>` of `pushpull/join.h` keeps the elements pushed so far on each side
in a map from keys to vectors. A push on one side stores the element there and pushes its
pairs with the stored elements of the other side downstream. The pairs pushed downstream
are returned here, in their order; a downstream that does not push back sees just these.

`operator[]` of a `std::map` inserts an empty vector for a key that is not there, also
when it only reads.

## Main results

* `equijoin`: what a join is for, over multisets.
* `coe_pushAll`: what was pushed downstream is the equijoin of what was pushed on the two
  sides.
* `coe_nestedPairs`: the nested loop of the naive equijoin computes the same multiset.
-/

namespace LatticeFlow

/-! ### Equijoin of multisets -/

section Equijoin

variable {α β Key : Type} [DecidableEq Key] (key_left : α → Key) (key_right : β → Key)

/-- The **equijoin** of two multisets: the pairs of elements with equal keys. -/
def equijoin (ls : Multiset α) (rs : Multiset β) : Multiset (α × β) :=
  (ls ×ˢ rs).filter fun p => key_left p.1 = key_right p.2

/-- One more element on the left. -/
theorem equijoin_cons_left (l : α) (ls : Multiset α) (rs : Multiset β) :
    equijoin key_left key_right (l ::ₘ ls) rs =
      (rs.filter fun r => key_right r = key_left l).map (l, ·) +
        equijoin key_left key_right ls rs := by
  rw [equijoin, Multiset.cons_product, Multiset.filter_add, Multiset.filter_map]
  simp only [Function.comp_def, eq_comm, equijoin]

/-- One more element on the right. -/
theorem equijoin_cons_right (r : β) (ls : Multiset α) (rs : Multiset β) :
    equijoin key_left key_right ls (r ::ₘ rs) =
      (ls.filter fun l => key_left l = key_right r).map (·, r) +
        equijoin key_left key_right ls rs := by
  rw [equijoin, Multiset.product_cons, Multiset.filter_add, Multiset.filter_map]
  simp only [Function.comp_def, equijoin]

end Equijoin

/-! ### Join<Push> -/

variable {Key T : Type} [LinearOrder Key]

/-- `Join<Push, Key, T, T>`, without its functions and its downstream. -/
structure JoinPush (Key T : Type) where
  left_map_ : OrderedMap Key (List T) := []
  right_map_ : OrderedMap Key (List T) := []

/-- A push on one of the two sides. -/
inductive JoinInput (T : Type)
  | left (x : T)
  | right (x : T)

/-- `map[key].push_back(x)`. -/
def pushBack (m : OrderedMap Key (List T)) (key : Key) (x : T) : OrderedMap Key (List T) :=
  m.update OrderedMap.less key fun xs => xs.getD [] ++ [x]

/-- `map[key]`, read: the vector and the map, which holds it now. -/
def subscript (m : OrderedMap Key (List T)) (key : Key) : List T × OrderedMap Key (List T) :=
  ((m.find OrderedMap.less key).getD [], m.update OrderedMap.less key fun xs => xs.getD [])

namespace JoinPush

variable (key_left key_right : T → Key)

/-- `push_left`. -/
def pushLeft (s : JoinPush Key T) (left : T) : List (T × T) × JoinPush Key T :=
  let key := key_left left
  let left_map_ := pushBack s.left_map_ key left
  let (rights, right_map_) := subscript s.right_map_ key
  (rights.map fun right => (left, right), ⟨left_map_, right_map_⟩)

/-- `push_right`. -/
def pushRight (s : JoinPush Key T) (right : T) : List (T × T) × JoinPush Key T :=
  let key := key_right right
  let right_map_ := pushBack s.right_map_ key right
  let (lefts, left_map_) := subscript s.left_map_ key
  (lefts.map fun left => (left, right), ⟨left_map_, right_map_⟩)

/-- A push on either side. -/
def push (s : JoinPush Key T) : JoinInput T → List (T × T) × JoinPush Key T
  | .left x => s.pushLeft key_left x
  | .right x => s.pushRight key_right x

/-- Pushes one after another: what is pushed downstream, and the join afterwards. -/
def pushAll (s : JoinPush Key T) : List (JoinInput T) → List (T × T) × JoinPush Key T
  | [] => ([], s)
  | x :: xs =>
      let (out, s) := s.push key_left key_right x
      let (rest, s) := s.pushAll xs
      (out ++ rest, s)

end JoinPush

/-- The elements pushed on the left. -/
def lefts : List (JoinInput T) → List T
  | [] => []
  | .left x :: xs => x :: lefts xs
  | .right _ :: xs => lefts xs

/-- The elements pushed on the right. -/
def rights : List (JoinInput T) → List T
  | [] => []
  | .left _ :: xs => rights xs
  | .right x :: xs => x :: rights xs

/-! ### What the maps hold -/

/-- The map holds under each key the elements of the list with that key. -/
def HoldsByKey (key : T → Key) (m : OrderedMap Key (List T)) (xs : List T) : Prop :=
  ∀ k, (m.find OrderedMap.less k).getD [] = xs.filter fun x => key x = k

/-- A push to the back of the vector of its key. -/
theorem HoldsByKey.pushBack {key : T → Key} {m : OrderedMap Key (List T)} {xs : List T}
    (h : HoldsByKey key m xs) (x : T) :
    HoldsByKey key (pushBack m (key x) x) (xs ++ [x]) := by
  intro k
  rw [LatticeFlow.pushBack, OrderedMap.find_update]
  by_cases hk : k = key x
  · subst hk
    simp [h (key x)]
  · simp [hk, Ne.symm hk, h k]

/-- A read changes nothing but the presence of an empty vector. -/
theorem HoldsByKey.subscript {key : T → Key} {m : OrderedMap Key (List T)} {xs : List T}
    (h : HoldsByKey key m xs) (k : Key) :
    (subscript m k).1 = (xs.filter fun x => key x = k) ∧ HoldsByKey key (subscript m k).2 xs := by
  refine ⟨h k, fun j => ?_⟩
  rw [LatticeFlow.subscript, OrderedMap.find_update]
  by_cases hj : j = k
  · subst hj
    simp [h j]
  · simp [hj, h j]

/-- **One push** adds to the equijoin the pairs it pushes downstream. -/
theorem coe_push {key_left key_right : T → Key} {s : JoinPush Key T} {ls rs : List T}
    (hl : HoldsByKey key_left s.left_map_ ls) (hr : HoldsByKey key_right s.right_map_ rs)
    (x : JoinInput T) :
    equijoin key_left key_right (ls ++ lefts [x] : List T) (rs ++ rights [x] : List T) =
      equijoin key_left key_right ls rs + (s.push key_left key_right x).1 ∧
    HoldsByKey key_left (s.push key_left key_right x).2.left_map_ (ls ++ lefts [x]) ∧
    HoldsByKey key_right (s.push key_left key_right x).2.right_map_ (rs ++ rights [x]) := by
  cases x with
  | left x =>
      obtain ⟨hread, hright⟩ := hr.subscript (key_left x)
      refine ⟨?_, hl.pushBack x, by simpa [rights, JoinPush.push, JoinPush.pushLeft] using hright⟩
      have hcons : ((ls ++ lefts [.left x] : List T) : Multiset T) = x ::ₘ ls := by
        rw [← Multiset.coe_add, Multiset.add_comm]
        rfl
      rw [hcons, equijoin_cons_left, Multiset.add_comm]
      simp [JoinPush.push, JoinPush.pushLeft, hread, rights]
  | right x =>
      obtain ⟨hread, hleft⟩ := hl.subscript (key_right x)
      refine ⟨?_, by simpa [lefts, JoinPush.push, JoinPush.pushRight] using hleft, hr.pushBack x⟩
      have hcons : ((rs ++ rights [.right x] : List T) : Multiset T) = x ::ₘ rs := by
        rw [← Multiset.coe_add, Multiset.add_comm]
        rfl
      rw [hcons, equijoin_cons_right, Multiset.add_comm]
      simp [JoinPush.push, JoinPush.pushRight, hread, lefts]

/-- The first push counts if it is on the left. -/
theorem lefts_cons (x : JoinInput T) (xs : List (JoinInput T)) :
    lefts (x :: xs) = lefts [x] ++ lefts xs := by
  cases x <;> rfl

/-- The first push counts if it is on the right. -/
theorem rights_cons (x : JoinInput T) (xs : List (JoinInput T)) :
    rights (x :: xs) = rights [x] ++ rights xs := by
  cases x <;> rfl

/-- **All pushes**: each adds its pairs, so that together they make up the equijoin. -/
theorem coe_pushAll_from {key_left key_right : T → Key} (inputs : List (JoinInput T))
    {s : JoinPush Key T} {ls rs : List T} (hl : HoldsByKey key_left s.left_map_ ls)
    (hr : HoldsByKey key_right s.right_map_ rs) :
    equijoin key_left key_right (ls ++ lefts inputs : List T) (rs ++ rights inputs : List T) =
      equijoin key_left key_right ls rs + (s.pushAll key_left key_right inputs).1 := by
  induction inputs generalizing s ls rs with
  | nil => simp [lefts, rights, JoinPush.pushAll]
  | cons x xs ih =>
      obtain ⟨hpush, hl', hr'⟩ := coe_push hl hr x
      have hrest := ih hl' hr'
      rw [lefts_cons, rights_cons, ← List.append_assoc, ← List.append_assoc, hrest, hpush,
        Multiset.add_assoc, Multiset.coe_add]
      rfl

/-- What was pushed downstream is the equijoin of what was pushed on the two sides. -/
theorem coe_pushAll (key_left key_right : T → Key) (inputs : List (JoinInput T)) :
    (({} : JoinPush Key T).pushAll key_left key_right inputs).1 =
      equijoin key_left key_right (lefts inputs : Multiset T) (rights inputs) := by
  have hl : HoldsByKey key_left ({} : JoinPush Key T).left_map_ [] := fun _ => rfl
  have hr : HoldsByKey key_right ({} : JoinPush Key T).right_map_ [] := fun _ => rfl
  simpa [equijoin] using (coe_pushAll_from inputs hl hr).symm

/-! ### The naive equijoin -/

/-- The nested loop computes the equijoin. -/
theorem coe_nestedPairs {ts us : List Type} (leftIndex : Column Key ts)
    (rightIndex : Column Key us) (xs : List (Tuple ts)) (ys : List (Tuple us)) :
    (nestedPairs (sameKey leftIndex rightIndex) xs ys : Multiset (Tuple (ts ++ us))) =
      (equijoin leftIndex.get rightIndex.get (xs : Multiset (Tuple ts)) ys).map
        fun p => tupleCat p.1 p.2 := by
  induction xs with
  | nil => simp [nestedPairs, equijoin]
  | cons x xs ih =>
      rw [nestedPairs, List.flatMap_cons, ← nestedPairs, ← Multiset.coe_add, ih,
        ← Multiset.cons_coe, equijoin_cons_left, Multiset.map_add]
      have hkeep : sameKey leftIndex rightIndex x =
          fun r => decide (rightIndex.get r = leftIndex.get x) := by
        funext r
        simp only [sameKey, eq_comm]
      rw [hkeep]
      simp [Function.comp_def]

/-- **The streaming join equals the naive join.** Whatever the interleaving of the pushes,
the pairs pushed downstream are, as a multiset, the pairs of a left and a right element
with equal keys, once for each pair of pushes; so they depend on the two sides as multisets
only, and over tuples with columns as keys they are what the naive equijoin of the two
sides delivers. -/
theorem join_push_eq_naiveEquijoin (Key : Type) [LinearOrder Key] :
    (∀ (T : Type) (key_left key_right : T → Key) (inputs : List (JoinInput T)),
      ((({} : JoinPush Key T).pushAll key_left key_right inputs).1 : Multiset (T × T)) =
        equijoin key_left key_right (lefts inputs : Multiset T) (rights inputs)) ∧
    (∀ (T : Type) (key_left key_right : T → Key) (inputs inputs' : List (JoinInput T)),
      (lefts inputs).Perm (lefts inputs') → (rights inputs).Perm (rights inputs') →
      (({} : JoinPush Key T).pushAll key_left key_right inputs).1.Perm
        (({} : JoinPush Key T).pushAll key_left key_right inputs').1) ∧
    ∀ (ts : List Type) (leftIndex rightIndex : Column Key ts)
      (inputs : List (JoinInput (Tuple ts))), ∃ out,
      (naiveEquijoin (finiteIterator (lefts inputs)) (finiteIterator (rights inputs))
        leftIndex rightIndex).Restarts out ∧
      (out : Multiset (Tuple (ts ++ ts))) =
        Multiset.map (fun p : Tuple ts × Tuple ts => tupleCat p.1 p.2)
          (({} : JoinPush Key (Tuple ts)).pushAll leftIndex.get rightIndex.get inputs).1 := by
  refine ⟨fun T => coe_pushAll, fun T key_left key_right inputs inputs' hl hr => ?_,
    fun ts leftIndex rightIndex inputs => ?_⟩
  · rw [← Multiset.coe_eq_coe, coe_pushAll, coe_pushAll, Multiset.coe_eq_coe.mpr hl,
      Multiset.coe_eq_coe.mpr hr]
  · refine ⟨nestedPairs (sameKey leftIndex rightIndex) (lefts inputs) (rights inputs),
      restarts_naiveEquijoin (restarts_iterator _) (restarts_iterator _), ?_⟩
    rw [coe_nestedPairs, ← coe_pushAll]

/-- Two orders in which `1` and `5` are pushed on the left and `3` on the right, with the parity
as key: the pairs come in another order, and are the same. -/
theorem join_push_eq_naiveEquijoin_two_orders : ∃ out out' : List (ℕ × ℕ),
    (({} : JoinPush ℕ ℕ).pushAll (· % 2) (· % 2) [.left 1, .right 3, .left 5]).1 = out ∧
      (({} : JoinPush ℕ ℕ).pushAll (· % 2) (· % 2) [.left 5, .left 1, .right 3]).1 = out' ∧
      out ≠ out' ∧ out.Perm out' :=
  ⟨_, _, rfl, rfl, by decide,
    (join_push_eq_naiveEquijoin ℕ).2.1 ℕ _ _ _ _ (List.Perm.swap 5 1 []) (.refl [3])⟩

end LatticeFlow
