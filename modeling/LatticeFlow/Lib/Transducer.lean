import Mathlib.Data.List.Infix
import Mathlib.Data.List.ReduceOption
import Mathlib.Order.RelClasses

/-!
# Transducers and Answers with Holes

A **transducer** reads a sequence element by element and answers each element with a list,
which may be empty. What it answers to a sequence grows with the sequence.

A component that is asked again and again answers with an element or with nothing. Its
answers are looked at without the holes: `Delivers answers ys` says that what has been
answered is always a beginning of `ys`, and that in the end it is all of `ys`. A component
that follows a transducer in rounds of a fixed number of questions turns what is delivered
to it into what the transducer makes of it (`Delivers.transduce`).

## Main results

* `Transducer.run_mono`: a longer input has a longer answer.
* `fromHistory_append`: answers from the history, to one sequence after another.
* `asks_add`: questions one after another.
* `asks_invariant`, `exists_asks`: the invariant rule and the progress rule.
* `Delivers.transduce`: following a transducer round by round.
-/

universe u v

/-- A **transducer**. -/
structure Transducer (α : Type u) (β : Type v) where
  State : Type
  init : State
  step : State → α → List β × State

namespace Transducer

variable {α : Type u} {β : Type v} (t : Transducer α β)

/-- What is answered to a sequence, and the state afterwards. -/
def feed : t.State → List α → List β × t.State
  | m, [] => ([], m)
  | m, x :: xs =>
      let (ys, m) := t.step m x
      let (zs, m) := feed m xs
      (ys ++ zs, m)

/-- What is answered to a sequence from the initial state. -/
def run (xs : List α) : List β :=
  (t.feed t.init xs).1

/-- The first input is processed first. -/
theorem feed_cons (m : t.State) (x : α) (xs : List α) :
    t.feed m (x :: xs) =
      ((t.step m x).1 ++ (t.feed (t.step m x).2 xs).1, (t.feed (t.step m x).2 xs).2) :=
  rfl

/-- The second part is processed in the state after the first. -/
theorem feed_append (m : t.State) (xs ys : List α) :
    t.feed m (xs ++ ys) =
      ((t.feed m xs).1 ++ (t.feed (t.feed m xs).2 ys).1, (t.feed (t.feed m xs).2 ys).2) := by
  induction xs generalizing m with
  | nil => rfl
  | cons x xs ih => simp only [List.cons_append, feed_cons, ih, List.append_assoc]

/-- **A longer input has a longer answer.** -/
theorem run_mono {xs ys : List α} (h : xs <+: ys) : t.run xs <+: t.run ys := by
  obtain ⟨zs, rfl⟩ := h
  rw [run, run, feed_append]
  exact List.prefix_append _ _

end Transducer

/-! ### Answers from the history -/

section History

variable {α : Type u} {β : Type v} (f : List α → α → List β)

/-- Answer each element of a sequence from it and the elements before it, of which some have
come already. -/
def fromHistory : List α → List α → List β
  | _, [] => []
  | before, x :: xs => f before x ++ fromHistory (before ++ [x]) xs

/-- The second part is answered with the first one in the history. -/
theorem fromHistory_append (before xs ys : List α) :
    fromHistory f before (xs ++ ys) =
      fromHistory f before xs ++ fromHistory f (before ++ xs) ys := by
  induction xs generalizing before with
  | nil => rw [List.append_nil]; rfl
  | cons x xs ih => simp [fromHistory, ih]

/-- One more element. -/
theorem fromHistory_concat (xs : List α) (x : α) :
    fromHistory f [] (xs ++ [x]) = fromHistory f [] xs ++ f xs x := by
  simp [fromHistory_append, fromHistory]

end History

/-! ### Questions and answers -/

section Asks

variable {S S' : Type u} {α : Type v}

/-- The answers to so many questions, and the state afterwards. -/
def asks (ask : S → Option α × S) : ℕ → S → List (Option α) × S
  | 0, s => ([], s)
  | n + 1, s =>
      let (o, s) := ask s
      let (os, s) := asks ask n s
      (o :: os, s)

/-- Questions one after another. -/
theorem asks_add (ask : S → Option α × S) (m n : ℕ) (s : S) :
    asks ask (m + n) s =
      ((asks ask m s).1 ++ (asks ask n (asks ask m s).2).1,
        (asks ask n (asks ask m s).2).2) := by
  induction m generalizing s with
  | zero => simp [asks]
  | succ m ih => simp only [Nat.succ_add, asks, ih, List.cons_append]

/-- Another representation of the state gives the same answers. -/
theorem asks_hom {ask : S → Option α × S} {ask' : S' → Option α × S'} (f : S → S')
    (h : ∀ s, ask' (f s) = ((ask s).1, f (ask s).2)) (n : ℕ) (s : S) :
    asks ask' n (f s) = ((asks ask n s).1, f (asks ask n s).2) := by
  induction n generalizing s with
  | zero => rfl
  | succ n ih => simp only [asks, h, ih]

/-- The first answer counts if it is no hole. -/
theorem reduceOption_cons (o : Option α) (os : List (Option α)) :
    (o :: os).reduceOption = o.toList ++ os.reduceOption := by
  rw [← List.reduceOption_singleton, ← List.reduceOption_append, List.singleton_append]

/-- **The invariant rule**: what one question keeps, of the state and of the answers so far,
is kept by any number of questions. -/
theorem asks_invariant (ask : S → Option α × S) {I : S → List α → Prop}
    (step : ∀ s out, I s out → I (ask s).2 (out ++ (ask s).1.toList)) (n : ℕ) (s : S)
    (out : List α) (h : I s out) : I (asks ask n s).2 (out ++ (asks ask n s).1.reduceOption) := by
  induction n generalizing s out with
  | zero => simpa [asks] using h
  | succ n ih =>
      simp only [asks, reduceOption_cons, ← List.append_assoc]
      exact ih _ _ (step s out h)

/-- **The progress rule**: if every question that does not find the component done brings it
closer to that, it is done after some number of questions. -/
theorem exists_asks (ask : S → Option α × S) {I : S → Prop} (done : S → Prop) {M : Type*}
    [Preorder M] [WellFoundedLT M] (measure : S → M) (keep : ∀ s, I s → I (ask s).2)
    (closer : ∀ s, I s → ¬ done s → measure (ask s).2 < measure s) {s : S} (h : I s) :
    ∃ n, done (asks ask n s).2 := by
  induction hm : measure s using WellFoundedLT.induction generalizing s with
  | _ m ih =>
      by_cases hdone : done s
      · exact ⟨0, hdone⟩
      · obtain ⟨n, hn⟩ := ih _ (hm ▸ closer s h hdone) (keep s h) rfl
        exact ⟨n + 1, hn⟩

/-- What has been answered to the first questions, without the holes. -/
def answers (ask : S → Option α × S) (s : S) (n : ℕ) : List α :=
  (asks ask n s).1.reduceOption

/-- More answers begin with the fewer ones. -/
theorem answers_mono (ask : S → Option α × S) (s : S) {m n : ℕ} (h : m ≤ n) :
    answers ask s m <+: answers ask s n := by
  obtain ⟨k, rfl⟩ := Nat.exists_eq_add_of_le h
  rw [answers, answers, asks_add, List.reduceOption_append]
  exact List.prefix_append _ _

end Asks

/-! ### Delivery -/

section Delivers

variable {α : Type u} {β : Type v}

/-- The answers are a beginning of the sequence at any time, and all of it in the end. -/
structure Delivers (out : ℕ → List α) (xs : List α) : Prop where
  beginning : ∀ n, out n <+: xs
  complete : ∃ n₀, ∀ n, n₀ ≤ n → out n = xs

/-- **Following a transducer.** If the answers to `k` questions each are what a transducer
makes of one more answer of another component, the component delivers what the transducer
makes of what the other delivers. -/
theorem Delivers.transduce {out : ℕ → List α} {out' : ℕ → List β} {xs : List α}
    (h : Delivers out xs) (t : Transducer α β) {k : ℕ} (hk : 0 < k)
    (hmono : ∀ m n, m ≤ n → out' m <+: out' n) (hround : ∀ n, out' (k * n) = t.run (out n)) :
    Delivers out' (t.run xs) := by
  have hbeginning : ∀ n, out' n <+: t.run xs := fun n =>
    (hmono n (k * n) (Nat.le_mul_of_pos_left n hk)).trans
      (by rw [hround]; exact t.run_mono (h.beginning n))
  obtain ⟨n₀, hn₀⟩ := h.complete
  refine ⟨hbeginning, k * n₀, fun n hn => ?_⟩
  -- The answers at the end of a late round are a beginning of those from then on.
  have hlate : t.run xs <+: out' n := by
    rw [← hn₀ n₀ le_rfl, ← hround]
    exact hmono _ _ hn
  exact (hbeginning n).eq_of_length_le hlate.length_le

end Delivers
