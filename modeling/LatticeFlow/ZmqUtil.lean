import Mathlib.Algebra.GroupWithZero.Nat
import Mathlib.Data.List.Lex
import Mathlib.Order.Fin.Basic
import LatticeFlow.Lib.Ordered

/-!
# Messages and Connection Ids

This module models the comparisons of `zmq_util`: `operator<` of messages
(`zmq_util/msg_util.cc`) and `operator<` of connection ids
(`zmq_util/connection_id.cc`), which `std::map`s keyed by connection ids use.

A message is the list of its bytes. Both comparisons call
`std::lexicographical_compare` on two iterator ranges; a range is given by two positions
of a sequence and stands for the elements between them. Messages are compared over their
whole ranges, so their order is the lexicographic one (`messageLess_iff`). Connection ids
are compared over the ranges from `cbegin` to `cbegin` and from `cend` to `cend`.

## Main results

* `ConnectionId.less_eq_false`: no connection id is smaller than another.
* `wholeRange_compare_iff`: over the whole ranges the comparison would be the
  lexicographic order of the frames.
* `separates_iff`: what follows for the order, and for the maps keyed by connection ids.
-/

namespace LatticeFlow

/-- A byte, that is an `unsigned char`. -/
abbrev Byte := Fin 256

instance instNeZeroByte : NeZero 256 := ⟨by decide⟩

/-- A sequence of bytes, compared lexicographically: a `std::string`, or the contents of a
`zmq::message_t`. -/
abbrev Bytes := List Byte

/-- The elements between two iterators of a sequence, which are positions in it. -/
def iteratorRange {α : Type} (xs : List α) (first last : ℕ) : List α :=
  (xs.take last).drop first

/-- The position of `cbegin`. -/
def cbegin {α : Type} (_ : List α) : ℕ := 0

/-- The position of `cend`. -/
def cend {α : Type} (xs : List α) : ℕ := xs.length

/-- `operator<` of `zmq::message_t`. -/
def messageLess (lhs rhs : Bytes) : Bool :=
  lexicographicalCompare (fun x y => decide (x < y))
    (iteratorRange lhs (cbegin lhs) (cend lhs)) (iteratorRange rhs (cbegin rhs) (cend rhs))

/-- `ConnectionId`: the connection identities and the empty delimiter. -/
structure ConnectionId where
  connection_ids_ : List Bytes
  deriving DecidableEq, Repr

/-- `operator<` of `ConnectionId`. -/
def ConnectionId.less (lhs rhs : ConnectionId) : Bool :=
  lexicographicalCompare messageLess
    (iteratorRange lhs.connection_ids_ (cbegin lhs.connection_ids_)
      (cbegin lhs.connection_ids_))
    (iteratorRange rhs.connection_ids_ (cend rhs.connection_ids_) (cend rhs.connection_ids_))

/-! ### What the comparisons compute -/

/-- The range from `cbegin` to `cend` is everything. -/
theorem iteratorRange_whole {α : Type} (xs : List α) :
    iteratorRange xs (cbegin xs) (cend xs) = xs := by
  simp [iteratorRange, cbegin, cend]

/-- A range from a position to itself is empty. -/
theorem iteratorRange_self {α : Type} (xs : List α) (n : ℕ) : iteratorRange xs n n = [] := by
  simp [iteratorRange]

/-- Messages are compared lexicographically. -/
theorem messageLess_iff {lhs rhs : Bytes} : messageLess lhs rhs = true ↔ lhs < rhs := by
  rw [messageLess, iteratorRange_whole, iteratorRange_whole]
  exact lexicographicalCompare_iff_lt (α := Byte) fun x y => decide_eq_true_iff

/-- Over the whole ranges, comparing frames would compare connection ids by the
lexicographic order of their frames, which is total. -/
theorem wholeRange_compare_iff {lhs rhs : List Bytes} :
    lexicographicalCompare messageLess (iteratorRange lhs (cbegin lhs) (cend lhs))
      (iteratorRange rhs (cbegin rhs) (cend rhs)) = true ↔ lhs < rhs := by
  rw [iteratorRange_whole, iteratorRange_whole]
  exact lexicographicalCompare_iff_lt (α := Bytes) fun x y => messageLess_iff

/-- **No connection id is smaller than another**: both ranges are empty. -/
theorem ConnectionId.less_eq_false (lhs rhs : ConnectionId) : lhs.less rhs = false := by
  rw [ConnectionId.less, iteratorRange_self, iteratorRange_self]
  rfl

/-! ### Separating connections -/

/-- Exactly one of three propositions holds. -/
def ExactlyOne (p q r : Prop) : Prop :=
  (p ∧ ¬ q ∧ ¬ r) ∨ (¬ p ∧ q ∧ ¬ r) ∨ (¬ p ∧ ¬ q ∧ r)

/-- No `std::map` keyed by connection ids mistakes `a` for `b`: whatever is stored for
`a`, a search for `b` finds what it found before. -/
def KeptApart (a b : ConnectionId) : Prop :=
  ∀ (V : Type) (m : OrderedMap ConnectionId V) (f : Option V → V),
    OrderedMap.find ConnectionId.less b (OrderedMap.update ConnectionId.less a f m) =
      OrderedMap.find ConnectionId.less b m

/-- At `a`, `b` and `c` the comparison is a strict total order up to the frames, and maps
keep `a` and `b` apart if their frames differ. -/
structure Separates (a b c : ConnectionId) : Prop where
  irrefl : ¬ a.less a = true
  trans : a.less b = true → b.less c = true → a.less c = true
  trichotomous : ExactlyOne (a.less b = true) (b.less a = true)
    (a.connection_ids_ = b.connection_ids_)
  keptApart : a.connection_ids_ ≠ b.connection_ids_ → KeptApart a b

/-- **The comparison separates no connections**: it behaves like a strict total order on
the frames exactly where there is nothing to separate. -/
theorem separates_iff (a b c : ConnectionId) :
    Separates a b c ↔ a.connection_ids_ = b.connection_ids_ := by
  constructor
  · intro h
    rcases h.trichotomous with ⟨hab, -, -⟩ | ⟨-, hba, -⟩ | ⟨-, -, heq⟩
    · rw [ConnectionId.less_eq_false] at hab
      cases hab
    · rw [ConnectionId.less_eq_false] at hba
      cases hba
    · exact heq
  · intro heq
    refine ⟨?_, ?_, Or.inr (Or.inr ⟨?_, ?_, heq⟩), fun hne => absurd heq hne⟩
    · simp [ConnectionId.less_eq_false]
    · simp [ConnectionId.less_eq_false]
    · simp [ConnectionId.less_eq_false]
    · simp [ConnectionId.less_eq_false]

/-- No connection ids are kept apart, whatever their frames: a map takes all of them for
one key. -/
theorem not_keptApart (a b : ConnectionId) : ¬ KeptApart a b := by
  intro h
  have hfind := h Unit [] fun _ => ()
  rw [OrderedMap.find_update_of_never ConnectionId.less_eq_false] at hfind
  cases hfind

/-- Two clients with the identities `0x01` and `0x02`: neither is smaller, and an entry of
the first is found under the second. -/
theorem two_connections_identified :
    let a : ConnectionId := ⟨[[1], []]⟩
    let b : ConnectionId := ⟨[[2], []]⟩
    a.connection_ids_ ≠ b.connection_ids_ ∧ ¬ a.less b = true ∧ ¬ b.less a = true ∧
      OrderedMap.find ConnectionId.less b
        (OrderedMap.update ConnectionId.less a (fun _ => 7) []) = some 7 ∧
      ¬ Separates a b a := by
  refine ⟨by decide, by decide, by decide, by decide, fun h => ?_⟩
  exact not_keptApart _ _ (h.keptApart (by decide))

end LatticeFlow
