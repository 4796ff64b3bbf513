import Mathlib.Data.List.FinRange
import Mathlib.Data.List.Perm.Basic

/-!
# What Threads Hold

Each of a fixed number of threads has a state of its own, and in some of these states it
holds a value. The values held by all threads are collected in the order of the threads.
Only the thread that moves changes what is held.

## Main results

* `perm_filterMap_finRange`: one more value of a partial function.
* `held_acquire`, `held_release`, `held_update`: a step of one thread.
-/

universe u v

variable {n : ℕ} {σ : Type u} {β : Type v}

/-- One more value of a partial function. -/
theorem perm_filterMap_finRange {j : Fin n} {f g : Fin n → Option β} {x : β}
    (hg : g j = some x) (hf : f j = none) (hne : ∀ k, k ≠ j → g k = f k) :
    ((List.finRange n).filterMap g).Perm (x :: (List.finRange n).filterMap f) := by
  have hperm := List.perm_cons_erase (List.mem_finRange j)
  have herase : ((List.finRange n).erase j).filterMap g =
      ((List.finRange n).erase j).filterMap f := by
    refine List.filterMap_congr fun k hk => hne k ?_
    exact ((List.nodup_finRange n).mem_erase_iff.mp hk).1
  have hperm_g := hperm.filterMap g
  have hperm_f := hperm.filterMap f
  rw [List.filterMap_cons_some hg, herase] at hperm_g
  rw [List.filterMap_cons_none hf] at hperm_f
  exact hperm_g.trans (hperm_f.symm.cons x)

/-- What the threads hold, if a thread in the state `p` holds `holds p`. -/
def held (holds : σ → Option β) (pc : Fin n → σ) : List β :=
  (List.finRange n).filterMap fun j => holds (pc j)

variable {holds : σ → Option β} {pc : Fin n → σ} {j : Fin n} {p : σ} {x : β}

/-- A thread takes a value. -/
theorem held_acquire (hj : holds (pc j) = none) (hp : holds p = some x) :
    (held holds (Function.update pc j p)).Perm (x :: held holds pc) := by
  refine perm_filterMap_finRange (j := j) (by simpa using hp) hj fun k hk => ?_
  rw [Function.update_of_ne hk]

/-- A thread gives a value away. -/
theorem held_release (hj : holds (pc j) = some x) (hp : holds p = none) :
    (held holds pc).Perm (x :: held holds (Function.update pc j p)) := by
  refine perm_filterMap_finRange (j := j) hj (by simpa using hp) fun k hk => ?_
  rw [Function.update_of_ne hk]

/-- A thread keeps what it holds. -/
theorem held_update (hp : holds p = holds (pc j)) :
    held holds (Function.update pc j p) = held holds pc := by
  refine List.filterMap_congr fun k _ => ?_
  by_cases hk : k = j
  · subst hk
    rw [Function.update_self, hp]
  · rw [Function.update_of_ne hk]
