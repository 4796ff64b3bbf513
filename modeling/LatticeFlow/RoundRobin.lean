import Mathlib.Data.List.Basic
import Mathlib.Data.List.Nodup
import Mathlib.Logic.Function.Basic

/-!
# Round Robin

`RoundRobin<Push, T>` of `pushpull/round_robin.h` pushes one element after another into its
downstreams in turn, and `RoundRobin<Pull, T>` pulls from its upstreams in turn. This module
puts the queues of `pushpull/queue.h` between the two: the one splits a stream over the
queues, the other merges them again, and pushes and pulls come in any order.

The queues are objects of their own, to which both sides hold pointers. A pointer is an
index into the family of queues here; an `index_` beyond the end of the vector would be
undefined behaviour, which is `none`. The two values of `index_` stay below the number of
pointers and need no modulus of their own.

The two indices know nothing of each other. What ties them together is that the element
pushed as number `i` is in the queue at `i % n`, and that the pulls pass the queues in the
same order (`RoundRobinInv`).

## Main results

* `roundRobin_keeps_order`: if there is an element to be pulled whenever one is pulled, the
  pulls return the pushed elements in their order.
-/

namespace LatticeFlow

/-! ### Queues and round robins -/

variable {ι T : Type}

/-- `Queue::push`. -/
def queuePush (xs_ : List T) (x : T) : List T := xs_ ++ [x]

/-- `Queue::pull`. -/
def queuePull : List T → Option T × List T
  | [] => (none, [])
  | x :: xs_ => (some x, xs_)

/-- `RoundRobin<Push, T>`. -/
structure RoundRobinPush (ι : Type) where
  downstreams_ : List ι
  index_ : ℕ := 0

/-- `RoundRobin<Pull, T>`. -/
structure RoundRobinPull (ι : Type) where
  upstreams_ : List ι
  index_ : ℕ := 0

section

variable [DecidableEq ι]

/-- `RoundRobin<Push>::push` into queues. -/
def RoundRobinPush.push (r : RoundRobinPush ι) (queues : ι → List T) (x : T) :
    Option (RoundRobinPush ι × (ι → List T)) :=
  if 0 < r.downstreams_.length then do
    let d ← r.downstreams_[r.index_]?
    return ({ r with index_ := (r.index_ + 1) % r.downstreams_.length },
      Function.update queues d (queuePush (queues d) x))
  else some (r, queues)

/-- `RoundRobin<Pull>::pull` from queues. -/
def RoundRobinPull.pull (r : RoundRobinPull ι) (queues : ι → List T) :
    Option (Option T × RoundRobinPull ι × (ι → List T)) :=
  if 0 < r.upstreams_.length then do
    let d ← r.upstreams_[r.index_]?
    let (x, xs_) := queuePull (queues d)
    return (x, { r with index_ := (r.index_ + 1) % r.upstreams_.length },
      Function.update queues d xs_)
  else some (none, r, queues)

/-- The two round robins and the queues between them. -/
structure RoundRobins (ι T : Type) where
  split : RoundRobinPush ι
  merge : RoundRobinPull ι
  queues : ι → List T

/-- New round robins over the same empty queues. -/
def RoundRobins.new (ds : List ι) : RoundRobins ι T where
  split := { downstreams_ := ds }
  merge := { upstreams_ := ds }
  queues _ := []

/-- A call from outside. -/
inductive RoundRobinCall (T : Type)
  | push (x : T)
  | pull

/-- The calls one after another, with what the pulls return. -/
def RoundRobins.run (s : RoundRobins ι T) :
    List (RoundRobinCall T) → Option (List (Option T) × RoundRobins ι T)
  | [] => some ([], s)
  | .push x :: calls => do
      let (split, queues) ← s.split.push s.queues x
      RoundRobins.run { s with split := split, queues := queues } calls
  | .pull :: calls => do
      let (x, merge, queues) ← s.merge.pull s.queues
      let (xs, s) ← RoundRobins.run { s with merge := merge, queues := queues } calls
      return (x :: xs, s)

end

/-- The elements pushed. -/
def pushedValues : List (RoundRobinCall T) → List T
  | [] => []
  | .push x :: calls => x :: pushedValues calls
  | .pull :: calls => pushedValues calls

/-- The number of pulls. -/
def numPulls : List (RoundRobinCall T) → ℕ
  | [] => 0
  | .push _ :: calls => numPulls calls
  | .pull :: calls => numPulls calls + 1

/-! ### Where the elements are -/

/-- Of the elements `xs`, numbered from zero, those from number `k` on that go to the queue
at `j`. -/
def queuedAt (n : ℕ) (xs : List T) (k j : ℕ) : List T :=
  ((xs.zipIdx.drop k).filter fun p => p.2 % n = j).map Prod.fst

/-- One more push goes to the queue whose turn it is. -/
theorem queuedAt_concat {n k : ℕ} {xs : List T} (hk : k ≤ xs.length) (x : T) (j : ℕ) :
    queuedAt n (xs ++ [x]) k j =
      queuedAt n xs k j ++ if xs.length % n = j then [x] else [] := by
  have hdrop : (xs ++ [x]).zipIdx.drop k = xs.zipIdx.drop k ++ [(x, xs.length)] := by
    rw [List.zipIdx_append, List.drop_append_of_le_length (by simpa using hk)]
    simp
  rw [queuedAt, queuedAt, hdrop, List.filter_append, List.map_append]
  split_ifs with h <;> simp [h]

/-- The element to be pulled next is in front of the queue whose turn it is. -/
theorem queuedAt_of_lt {n k : ℕ} {xs : List T} (hk : k < xs.length) (j : ℕ) :
    queuedAt n xs k j =
      (if k % n = j then [xs[k]] else []) ++ queuedAt n xs (k + 1) j := by
  have hdrop : xs.zipIdx.drop k = (xs[k], k) :: xs.zipIdx.drop (k + 1) := by
    rw [List.drop_eq_getElem_cons (by simpa using hk)]
    simp
  rw [queuedAt, queuedAt, hdrop, List.filter_cons]
  by_cases h : k % n = j <;> simp [h]

/-- **The invariant** after `xs` was pushed and `k` elements were pulled: the indices count
the pushes and the pulls, and each queue holds its elements that have not been pulled. -/
structure RoundRobinInv (ds : List ι) (s : RoundRobins ι T) (xs : List T) (k : ℕ) : Prop where
  split : s.split = ⟨ds, xs.length % ds.length⟩
  merge : s.merge = ⟨ds, k % ds.length⟩
  pulled : k ≤ xs.length
  queues : ∀ j d, ds[j]? = some d → s.queues d = queuedAt ds.length xs k j

section

variable [DecidableEq ι] {ds : List ι} {s : RoundRobins ι T} {xs : List T} {k : ℕ}

omit [DecidableEq ι] in
/-- At the beginning the queues are empty, and both sides are at the first one. -/
theorem RoundRobinInv.new : RoundRobinInv ds (RoundRobins.new ds : RoundRobins ι T) [] 0 where
  split := by rw [List.length_nil, Nat.zero_mod]; rfl
  merge := by rw [Nat.zero_mod]; rfl
  pulled := Nat.le_refl 0
  queues _ _ _ := rfl

omit [DecidableEq ι] in
/-- Pointers to different queues stand at different places. -/
theorem ne_of_getElem?_ne (hds : ds.Nodup) {i j : ℕ} {d e : ι} (hi : ds[i]? = some d)
    (hj : ds[j]? = some e) (hij : j ≠ i) : e ≠ d := by
  rintro rfl
  obtain ⟨hi', hd⟩ := List.getElem?_eq_some_iff.mp hi
  obtain ⟨hj', he⟩ := List.getElem?_eq_some_iff.mp hj
  exact hij ((List.Nodup.getElem_inj_iff hds).mp (he.trans hd.symm))

/-- **One push** goes to the queue of its number. -/
theorem RoundRobinInv.push (h : RoundRobinInv ds s xs k) (hds : ds.Nodup)
    (hn : 0 < ds.length) (x : T) :
    ∃ split queues, s.split.push s.queues x = some (split, queues) ∧
      RoundRobinInv ds { s with split := split, queues := queues } (xs ++ [x]) k := by
  have hlt : xs.length % ds.length < ds.length := Nat.mod_lt _ hn
  have hget : ds[xs.length % ds.length]? = some ds[xs.length % ds.length] :=
    List.getElem?_eq_getElem hlt
  refine ⟨⟨ds, (xs.length % ds.length + 1) % ds.length⟩,
    Function.update s.queues ds[xs.length % ds.length]
      (queuePush (s.queues ds[xs.length % ds.length]) x), ?_, ?_, h.merge, ?_, ?_⟩
  · rw [RoundRobinPush.push, h.split, if_pos hn, hget]
    rfl
  · rw [Nat.mod_add_mod, List.length_append, List.length_singleton]
  · have := h.pulled
    simp
    omega
  · intro j d hd
    rw [queuedAt_concat h.pulled, ← h.queues j d hd]
    dsimp only
    rw [Function.update_apply]
    by_cases hj : xs.length % ds.length = j
    · subst hj
      rw [hget, Option.some.injEq] at hd
      rw [if_pos hd.symm, if_pos rfl, hd, queuePush]
    · rw [if_neg (ne_of_getElem?_ne hds hget hd (Ne.symm hj)), if_neg hj, List.append_nil]

/-- **One pull** returns the element whose number it has. -/
theorem RoundRobinInv.pull (h : RoundRobinInv ds s xs k) (hds : ds.Nodup)
    (hn : 0 < ds.length) (hk : k < xs.length) :
    ∃ merge queues, s.merge.pull s.queues = some (some xs[k], merge, queues) ∧
      RoundRobinInv ds { s with merge := merge, queues := queues } xs (k + 1) := by
  have hlt : k % ds.length < ds.length := Nat.mod_lt _ hn
  have hget : ds[k % ds.length]? = some ds[k % ds.length] := List.getElem?_eq_getElem hlt
  have hqueue : s.queues ds[k % ds.length] =
      xs[k] :: queuedAt ds.length xs (k + 1) (k % ds.length) := by
    rw [h.queues _ _ hget, queuedAt_of_lt hk, if_pos rfl]
    rfl
  refine ⟨⟨ds, (k % ds.length + 1) % ds.length⟩,
    Function.update s.queues ds[k % ds.length]
      (queuedAt ds.length xs (k + 1) (k % ds.length)), ?_, h.split, ?_, hk, ?_⟩
  · rw [RoundRobinPull.pull, h.merge, if_pos hn, hget]
    simp only [Option.bind_eq_bind, Option.bind_some, hqueue, queuePull]
    rfl
  · rw [Nat.mod_add_mod]
  · intro j d hd
    dsimp only
    rw [Function.update_apply]
    by_cases hj : k % ds.length = j
    · subst hj
      rw [hget, Option.some.injEq] at hd
      rw [if_pos hd.symm]
    · rw [if_neg (ne_of_getElem?_ne hds hget hd (Ne.symm hj)), h.queues j d hd,
        queuedAt_of_lt hk, if_neg hj, List.nil_append]

/-- **Whole runs**, from any state of the invariant: the pulls return the elements from
number `k` on. -/
theorem RoundRobinInv.run (hds : ds.Nodup) (hn : 0 < ds.length)
    (h : RoundRobinInv ds s xs k) (calls : List (RoundRobinCall T))
    (hcalls : ∀ pre post, calls = pre ++ .pull :: post →
      k + numPulls pre < xs.length + (pushedValues pre).length) :
    ∃ s', s.run calls =
      some ((((xs ++ pushedValues calls).drop k).take (numPulls calls)).map some, s') := by
  induction calls generalizing s xs k with
  | nil => exact ⟨s, by simp [RoundRobins.run, numPulls]⟩
  | cons call calls ih =>
      cases call with
      | push x =>
          obtain ⟨split, queues, hpush, hinv⟩ := h.push hds hn x
          obtain ⟨s', hs'⟩ := ih hinv fun pre post hpre => by
            have hlt := hcalls (.push x :: pre) post (by rw [hpre]; rfl)
            simp only [numPulls, pushedValues, List.length_append, List.length_cons,
              List.length_nil] at hlt ⊢
            omega
          refine ⟨s', ?_⟩
          simp only [RoundRobins.run, hpush, Option.bind_eq_bind, Option.bind_some, hs',
            pushedValues, numPulls, List.append_assoc, List.singleton_append]
      | pull =>
          have hk : k < xs.length := by simpa [numPulls, pushedValues] using hcalls [] calls rfl
          obtain ⟨merge, queues, hpull, hinv⟩ := h.pull hds hn hk
          obtain ⟨s', hs'⟩ := ih hinv fun pre post hpre => by
            have hlt := hcalls (.pull :: pre) post (by rw [hpre]; rfl)
            simp only [numPulls, pushedValues] at hlt
            omega
          have hdrop : (xs ++ pushedValues calls).drop k =
              xs[k] :: (xs ++ pushedValues calls).drop (k + 1) := by
            rw [List.drop_eq_getElem_cons (by simp; omega), List.getElem_append_left hk]
          refine ⟨s', ?_⟩
          simp only [RoundRobins.run, hpull, Option.bind_eq_bind, Option.bind_some, hs',
            pushedValues, numPulls, hdrop, List.take_succ_cons, List.map_cons]
          rfl

end

/-- **Splitting and merging keep the order.** Over any number of different empty queues, and
for every order of pushes and pulls in which no pull happens when as many pulls as pushes
have been made, the calls return, and the pulls return the elements pushed, in their
order. -/
theorem roundRobin_keeps_order [DecidableEq ι] (ds : List ι) (hn : 1 ≤ ds.length)
    (hds : ds.Nodup) (calls : List (RoundRobinCall T))
    (hcalls : ∀ pre post, calls = pre ++ .pull :: post →
      numPulls pre < (pushedValues pre).length) :
    ∃ s, (RoundRobins.new ds).run calls =
      some (((pushedValues calls).take (numPulls calls)).map some, s) := by
  have hrun := RoundRobinInv.new.run hds hn calls fun pre post hpre => by
    simpa using hcalls pre post hpre
  simpa using hrun

/-- Two queues and pulls between the pushes: the pulls are the third and the last call. -/
theorem roundRobin_keeps_order_two_queues :
    ∃ s, (RoundRobins.new [0, 1] : RoundRobins ℕ ℕ).run
        [.push 10, .push 11, .pull, .push 12, .pull] = some ([some 10, some 11], s) := by
  refine roundRobin_keeps_order [0, 1] (by decide) (by decide)
    [.push 10, .push 11, .pull, .push 12, .pull] ?_
  intro pre post hpre
  rcases pre with _ | ⟨a, _ | ⟨b, _ | ⟨c, _ | ⟨d, _ | ⟨e, pre⟩⟩⟩⟩⟩
  · cases hpre
  · cases hpre
  · cases hpre
    decide
  · cases hpre
  · cases hpre
    decide
  · simp at hpre

end LatticeFlow
