import Mathlib.Data.List.Basic

/-!
# Histories

A history is a list of events that a run extends at its end. What is claimed of an event
usually refers to the events before it: `EachAfter P h` says that every event of `h` stands
in the relation `P` to its past, and `SomeAfter P h` that some event does. A run proves
them one event at a time.

## Main results

* `eachAfter_append`, `someAfter_append`: one more event.
-/

universe u

variable {α : Type u} {P : List α → α → Prop} {h : List α} {e : α}

/-- Every event of the history stands in the relation `P` to the events before it. -/
def EachAfter (P : List α → α → Prop) (h : List α) : Prop :=
  ∀ p e q, h = p ++ e :: q → P p e

/-- Some event of the history stands in the relation `P` to the events before it. -/
def SomeAfter (P : List α → α → Prop) (h : List α) : Prop :=
  ∃ p e q, h = p ++ e :: q ∧ P p e

/-- There is nothing to show of an empty history. -/
theorem EachAfter.nil : EachAfter P [] := by
  intro p e q heq
  simp at heq

/-- **One more event**: it is the only one to check. -/
theorem eachAfter_append : EachAfter P (h ++ [e]) ↔ EachAfter P h ∧ P h e := by
  constructor
  · intro hh
    refine ⟨fun p e' q heq => hh p e' (q ++ [e]) (by simp [heq]), hh h e [] rfl⟩
  · rintro ⟨hh, he⟩ p e' q heq
    rcases List.eq_nil_or_concat q with rfl | ⟨q', e'', rfl⟩
    · obtain ⟨rfl, hlast⟩ := List.append_inj' heq rfl
      obtain rfl := List.singleton_inj.mp hlast
      exact he
    · rw [List.concat_eq_append, ← List.cons_append, ← List.append_assoc] at heq
      obtain ⟨hinit, -⟩ := List.append_inj' heq rfl
      exact hh p e' q' hinit

/-- One more event, in view of those before it. -/
theorem EachAfter.append (hh : EachAfter P h) (he : P h e) : EachAfter P (h ++ [e]) :=
  eachAfter_append.mpr ⟨hh, he⟩

/-- Some event does unless each one does not. -/
theorem not_someAfter : ¬ SomeAfter P h ↔ EachAfter (fun p e => ¬ P p e) h := by
  constructor
  · intro hh p e q heq he
    exact hh ⟨p, e, q, heq, he⟩
  · rintro hh ⟨p, e, q, heq, he⟩
    exact hh p e q heq he

/-- The event may be one of those before or the last one. -/
theorem someAfter_append : SomeAfter P (h ++ [e]) ↔ SomeAfter P h ∨ P h e := by
  rw [← not_iff_not, not_or, not_someAfter, not_someAfter, eachAfter_append]
