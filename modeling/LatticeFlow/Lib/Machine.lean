import Mathlib.Data.Option.Basic
import Mathlib.Order.RelClasses

/-!
# Machines, Runs, and Invariants

A concurrent program is modelled here as a **machine**: one initial state and a guarded,
executable step function. Everything a scheduler, a network, or a caller decides is
packed into the action, so that `step s a` is a function; `none` says that the action
`a` is not enabled in `s`.

`ReachableBy ok` collects the states of the runs all of whose steps meet `ok`, a
condition on the state before the step and the action. With the trivial condition it is
plain reachability (`Reachable`), so the rules below serve both.

## Main results

* `ReachableBy.invariant`: what holds initially and is kept by every step holds in every
  state reached.
* `Reachable.simulate`: forward simulation, with stuttering, into another machine.
* `reachable_of_run`: a run found by evaluating `run` is a run.
* `settles_of_measure`: steps of a certain kind that bring the machine down in a well-founded
  order come to an end, whatever their order.
-/

universe u v w x

/-- A **machine**: an initial state and the guarded steps of its actions. -/
structure Machine (σ : Type u) (ℓ : Type v) where
  init : σ
  step : σ → ℓ → Option σ

namespace Machine

variable {σ : Type u} {ℓ : Type v} {τ : Type w} {κ : Type x}

/-- The states reached by the runs of `M` whose steps all meet `ok`. -/
inductive ReachableBy (M : Machine σ ℓ) (ok : σ → ℓ → Prop) : σ → Prop
  | init : ReachableBy M ok M.init
  | step {s s' : σ} {a : ℓ} :
      ReachableBy M ok s → ok s a → M.step s a = some s' → ReachableBy M ok s'

/-- The states reached by the runs of `M`. -/
def Reachable (M : Machine σ ℓ) : σ → Prop :=
  M.ReachableBy fun _ _ => True

/-- Perform the actions of a list one after another; `none` when one is not enabled. -/
def run (M : Machine σ ℓ) : σ → List ℓ → Option σ
  | s, [] => some s
  | s, a :: as => (M.step s a).bind fun s' => M.run s' as

variable {M : Machine σ ℓ} {N : Machine τ κ} {ok : σ → ℓ → Prop}

/-- The initial state is reachable. -/
theorem Reachable.init : M.Reachable M.init :=
  ReachableBy.init

/-- One more step of a reachable state. -/
theorem Reachable.step {s s' : σ} {a : ℓ} (h : M.Reachable s) (hs : M.step s a = some s') :
    M.Reachable s' :=
  ReachableBy.step h trivial hs

/-- Forgetting the condition on the steps. -/
theorem ReachableBy.reachable {s : σ} (h : M.ReachableBy ok s) : M.Reachable s := by
  induction h with
  | init => exact Reachable.init
  | step _ _ hs ih => exact ih.step hs

/-- **The invariant rule.** The step case may use that the state before the step is
itself reached by such a run. -/
theorem ReachableBy.invariant {I : σ → Prop} (init : I M.init)
    (step : ∀ s a s', M.ReachableBy ok s → I s → ok s a → M.step s a = some s' → I s')
    {s : σ} (h : M.ReachableBy ok s) : I s := by
  induction h with
  | init => exact init
  | step hr ha hs ih => exact step _ _ _ hr ih ha hs

/-- The invariant rule for unconditioned runs. -/
theorem Reachable.invariant {I : σ → Prop} (init : I M.init)
    (step : ∀ s a s', M.Reachable s → I s → M.step s a = some s' → I s')
    {s : σ} (h : M.Reachable s) : I s :=
  ReachableBy.invariant init (fun s a s' hr hi _ hs => step s a s' hr hi hs) h

/-- **Forward simulation.** If every step of `M` is matched by a step of `N` or by none
at all, every reachable state of `M` is related to a reachable state of `N`. -/
theorem Reachable.simulate {R : σ → τ → Prop} (init : R M.init N.init)
    (step : ∀ s t a s', M.Reachable s → R s t → M.step s a = some s' →
      R s' t ∨ ∃ b t', N.step t b = some t' ∧ R s' t')
    {s : σ} (h : M.Reachable s) : ∃ t, N.Reachable t ∧ R s t := by
  induction h with
  | init => exact ⟨N.init, Reachable.init, init⟩
  | step hr _ hs ih =>
      obtain ⟨t, ht, hR⟩ := ih
      rcases step _ t _ _ hr hR hs with hR' | ⟨b, t', hb, hR'⟩
      · exact ⟨t, ht, hR'⟩
      · exact ⟨t', ht.step hb, hR'⟩

/-- An evaluated run from a reachable state ends in a reachable state. -/
theorem Reachable.run {s s' : σ} {as : List ℓ} (h : M.Reachable s)
    (hr : M.run s as = some s') : M.Reachable s' := by
  induction as generalizing s with
  | nil =>
      obtain rfl : s = s' := Option.some.inj hr
      exact h
  | cons a as ih =>
      obtain ⟨s₁, hs, hr⟩ := Option.bind_eq_some_iff.mp hr
      exact ih (h.step hs) hr

/-- An evaluated run from the initial state ends in a reachable state. -/
theorem reachable_of_run {s : σ} {as : List ℓ} (hr : M.run M.init as = some s) :
    M.Reachable s :=
  Reachable.init.run hr

/-- Perform the actions of a list one after another; `none` when one is not enabled or does
not meet `ok`. -/
def runBy (M : Machine σ ℓ) (ok : σ → ℓ → Prop) [∀ s a, Decidable (ok s a)] :
    σ → List ℓ → Option σ
  | s, [] => some s
  | s, a :: as => if ok s a then (M.step s a).bind fun s' => M.runBy ok s' as else none

/-- An evaluated run all of whose steps meet a condition. -/
theorem ReachableBy.runBy [∀ s a, Decidable (ok s a)] {s s' : σ} {as : List ℓ}
    (h : M.ReachableBy ok s) (hr : M.runBy ok s as = some s') : M.ReachableBy ok s' := by
  induction as generalizing s with
  | nil =>
      obtain rfl : s = s' := Option.some.inj hr
      exact h
  | cons a as ih =>
      rw [Machine.runBy] at hr
      split_ifs at hr with ha
      obtain ⟨s₁, hs, hr⟩ := Option.bind_eq_some_iff.mp hr
      exact ih (h.step ha hs) hr

/-! ### Steps that come to an end -/

/-- From `s` on, no schedule of the actions `internal` goes on for ever. -/
def Settles (M : Machine σ ℓ) (internal : ℓ → Prop) : σ → Prop :=
  Acc fun s' s => ∃ a, internal a ∧ M.step s a = some s'

/-- None of the actions `internal` is enabled. -/
def Quiescent (M : Machine σ ℓ) (internal : ℓ → Prop) (s : σ) : Prop :=
  ∀ a, internal a → M.step s a = none

/-- **The termination rule**: as long as an invariant holds, every internal step makes a
measure smaller. -/
theorem settles_of_measure {internal : ℓ → Prop} {I : σ → Prop} {μ : Type*} [Preorder μ]
    [WellFoundedLT μ] (measure : σ → μ)
    (keep : ∀ s a s', I s → internal a → M.step s a = some s' → I s')
    (less : ∀ s a s', I s → internal a → M.step s a = some s' → measure s' < measure s)
    {s : σ} (h : I s) : M.Settles internal s := by
  induction hm : measure s using WellFoundedLT.induction generalizing s with
  | _ m ih =>
      refine ⟨s, ?_⟩
      rintro s' ⟨a, ha, hs⟩
      exact ih _ (hm ▸ less s a s' h ha hs) (keep s a s' h ha hs) rfl

end Machine
