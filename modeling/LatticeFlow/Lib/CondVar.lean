import Mathlib.Data.List.Basic

/-!
# Condition Variables

Threads that wait on condition variables under one lock. A thread that has to wait gives up
the lock and is a **waiter** until it runs again. It is woken by a notification, or without
one; it then runs when it gets the lock. Each critical section is one step, so that a waiter
is in the list of waiters from the end of one of its steps to the beginning of the next.

All waiters are in one list. A condition variable is the set `on` of the calls that wait on
it. `notify_one` wakes any one of the waiters that are asleep; which one is an argument, and
there is no argument only if there is none.

A condition variable usually stands for something of which there is a certain amount: its
waiters wait for one unit of it. `Served on n ws` says that no wake-up was lost for `n`
units: if a waiter sleeps, there are notified waiters for all of them.

## Main results

* `notifyOne_cases`, `wakeUp_cases`, `resume_cases`: what happens to the waiters.
* `Served.notifyOne`: a notification for one more unit.
* `Served.notifyOne_other`: a notification of another condition variable.
* `Served.resume`: a notified waiter that runs leaves one unit less to be served.
* `Served.notifyAll`: after `notify_all` any amount is served.
-/

universe u v

/-- What a waiter is waiting for: to be woken, or, woken by a notification or without one,
to get the lock. -/
inductive Wake
  | asleep
  | notified
  | spurious
  deriving DecidableEq, Repr

/-- A call that waits. -/
structure Waiter (θ : Type u) (κ : Type v) where
  thread : θ
  call : κ
  wake : Wake
  deriving DecidableEq, Repr

namespace Waiter

variable {θ : Type u} {κ : Type v} (on : κ → Bool)

/-- It sleeps on the condition variable. -/
def sleepsOn (w : Waiter θ κ) : Bool :=
  on w.call && w.wake == .asleep

/-- It has been notified through the condition variable. -/
def notifiedOn (w : Waiter θ κ) : Bool :=
  on w.call && w.wake == .notified

/-- How many sleep. -/
def asleep (ws : List (Waiter θ κ)) : ℕ :=
  ws.countP (sleepsOn on)

/-- How many have been notified and have not run since. -/
def notified (ws : List (Waiter θ κ)) : ℕ :=
  ws.countP (notifiedOn on)

/-- `notify_one`. -/
def notifyOne (choice : Option ℕ) (ws : List (Waiter θ κ)) : Option (List (Waiter θ κ)) :=
  match choice with
  | none => if ws.any (sleepsOn on) then none else some ws
  | some i =>
      match ws[i]? with
      | some w => if w.sleepsOn on then some (ws.set i { w with wake := .notified }) else none
      | none => none

/-- `notify_all`. -/
def notifyAll (ws : List (Waiter θ κ)) : List (Waiter θ κ) :=
  ws.map fun w => if w.sleepsOn on then { w with wake := .notified } else w

/-- A waiter wakes up without a notification. -/
def wakeUp (i : ℕ) (ws : List (Waiter θ κ)) : Option (List (Waiter θ κ)) :=
  match ws[i]? with
  | some w => if w.wake = .asleep then some (ws.set i { w with wake := .spurious }) else none
  | none => none

/-- A waiter that is awake gets the lock and is a waiter no longer. -/
def resume (i : ℕ) (ws : List (Waiter θ κ)) : Option (Waiter θ κ × List (Waiter θ κ)) :=
  match ws[i]? with
  | some w => if w.wake = .asleep then none else some (w, ws.eraseIdx i)
  | none => none

/-- **No lost wake-up**: if a waiter sleeps, `n` waiters or more have been notified. -/
def Served (n : ℕ) (ws : List (Waiter θ κ)) : Prop :=
  0 < asleep on ws → n ≤ notified on ws

/-! ### Counting -/

variable {on : κ → Bool} {ws ws' l₁ l₂ : List (Waiter θ κ)} {w : Waiter θ κ} {i n : ℕ}
  {t : θ} {c : κ}

@[simp] theorem sleepsOn_asleep : sleepsOn on ⟨t, c, .asleep⟩ = on c :=
  Bool.and_true _

@[simp] theorem sleepsOn_notified : sleepsOn on ⟨t, c, .notified⟩ = false :=
  Bool.and_false _

@[simp] theorem sleepsOn_spurious : sleepsOn on ⟨t, c, .spurious⟩ = false :=
  Bool.and_false _

@[simp] theorem notifiedOn_asleep : notifiedOn on ⟨t, c, .asleep⟩ = false :=
  Bool.and_false _

@[simp] theorem notifiedOn_notified : notifiedOn on ⟨t, c, .notified⟩ = on c :=
  Bool.and_true _

@[simp] theorem notifiedOn_spurious : notifiedOn on ⟨t, c, .spurious⟩ = false :=
  Bool.and_false _

/-- A waiter that sleeps on the condition variable. -/
theorem eq_asleep_of_sleepsOn (h : w.sleepsOn on = true) :
    on w.call = true ∧ w = ⟨w.thread, w.call, .asleep⟩ := by
  obtain ⟨t, c, wake⟩ := w
  cases wake with
  | asleep => exact ⟨by simpa using h, rfl⟩
  | notified => simp at h
  | spurious => simp at h

/-- One more waiter counts as asleep if it sleeps. -/
theorem asleep_split :
    asleep on (l₁ ++ w :: l₂) = asleep on (l₁ ++ l₂) + if w.sleepsOn on then 1 else 0 := by
  simp only [asleep, List.countP_append, List.countP_cons]
  omega

/-- One more waiter counts as notified if it has been. -/
theorem notified_split :
    notified on (l₁ ++ w :: l₂) = notified on (l₁ ++ l₂) + if w.notifiedOn on then 1 else 0 := by
  simp only [notified, List.countP_append, List.countP_cons]
  omega

/-- The list around one of its elements. -/
theorem exists_split {α : Type*} {xs : List α} {x : α} (h : xs[i]? = some x) :
    ∃ l₁ l₂, xs = l₁ ++ x :: l₂ ∧ (∀ y, xs.set i y = l₁ ++ y :: l₂) ∧
      xs.eraseIdx i = l₁ ++ l₂ := by
  obtain ⟨hi, rfl⟩ := List.getElem?_eq_some_iff.mp h
  refine ⟨xs.take i, xs.drop (i + 1), ?_, fun y => ?_, List.eraseIdx_eq_take_drop_succ xs i⟩
  · rw [← List.drop_eq_getElem_cons hi, List.take_append_drop]
  · exact List.set_eq_take_append_cons_drop.trans (if_pos hi)

/-! ### The threads that wait -/

/-- A notification wakes one of those that sleep, or nobody sleeps. -/
theorem notifyOne_cases {choice : Option ℕ} (h : notifyOne on choice ws = some ws') :
    (ws' = ws ∧ asleep on ws = 0) ∨
      ∃ l₁ l₂ t c, on c = true ∧ ws = l₁ ++ ⟨t, c, .asleep⟩ :: l₂ ∧
        ws' = l₁ ++ ⟨t, c, .notified⟩ :: l₂ := by
  cases choice with
  | none =>
      simp only [notifyOne] at h
      split_ifs at h with hany
      refine .inl ⟨(Option.some.inj h).symm, List.countP_eq_zero.mpr fun w hw hsleep => ?_⟩
      exact hany (List.any_eq_true.mpr ⟨w, hw, hsleep⟩)
  | some i =>
      simp only [notifyOne] at h
      split at h
      · rename_i w hget
        split_ifs at h with hsleep
        obtain ⟨hon, hw⟩ := eq_asleep_of_sleepsOn hsleep
        obtain ⟨l₁, l₂, hws, hset, -⟩ := exists_split hget
        exact .inr ⟨l₁, l₂, w.thread, w.call, hon, hw ▸ hws,
          (Option.some.inj h).symm.trans (hset _)⟩
      · cases h

/-- A wake-up without a notification. -/
theorem wakeUp_cases (h : wakeUp i ws = some ws') :
    ∃ l₁ l₂ t c, ws = l₁ ++ ⟨t, c, .asleep⟩ :: l₂ ∧ ws' = l₁ ++ ⟨t, c, .spurious⟩ :: l₂ := by
  simp only [wakeUp] at h
  split at h
  · rename_i w hget
    split_ifs at h with hwake
    obtain ⟨t, c, wake⟩ := w
    obtain rfl : wake = .asleep := hwake
    obtain ⟨l₁, l₂, rfl, hset, -⟩ := exists_split hget
    exact ⟨l₁, l₂, t, c, rfl, (Option.some.inj h).symm.trans (hset _)⟩
  · cases h

/-- A waiter that runs is awake, and the others stay. -/
theorem resume_cases (h : resume i ws = some (w, ws')) :
    w.wake ≠ .asleep ∧ ∃ l₁ l₂, ws = l₁ ++ w :: l₂ ∧ ws' = l₁ ++ l₂ := by
  simp only [resume] at h
  split at h
  · rename_i w' hget
    split_ifs at h with hwake
    obtain ⟨rfl, rfl⟩ := Prod.mk.inj (Option.some.inj h)
    obtain ⟨l₁, l₂, hws, -, herase⟩ := exists_split hget
    exact ⟨hwake, l₁, l₂, hws, herase⟩
  · cases h

/-- A waiter that cannot run sleeps. -/
theorem wake_of_resume_eq_none (h : ∀ i, resume i ws = none) (hw : w ∈ ws) :
    w.wake = .asleep := by
  obtain ⟨i, hi⟩ := List.mem_iff_getElem?.mp hw
  have hnone := h i
  simp only [resume, hi] at hnone
  by_contra hwake
  rw [if_neg hwake] at hnone
  cases hnone

/-- A notification leaves the same threads waiting. -/
theorem threads_notifyOne {choice : Option ℕ} (h : notifyOne on choice ws = some ws') :
    ws'.map thread = ws.map thread := by
  obtain ⟨rfl, -⟩ | ⟨l₁, l₂, t, c, -, rfl, rfl⟩ := notifyOne_cases h
  · rfl
  · simp

/-- So does a wake-up without one. -/
theorem threads_wakeUp (h : wakeUp i ws = some ws') : ws'.map thread = ws.map thread := by
  obtain ⟨l₁, l₂, t, c, rfl, rfl⟩ := wakeUp_cases h
  simp

/-! ### What is served -/

/-- Fewer wake-ups are owed to the waiters for fewer elements. -/
theorem Served.mono {m : ℕ} (h : Served on n ws) (hm : m ≤ n) : Served on m ws :=
  fun hpos => Nat.le_trans hm (h hpos)

/-- Nothing has to be served. -/
theorem served_zero : Served on 0 ws :=
  fun _ => Nat.zero_le _

/-- One more waiter on another condition variable. -/
theorem Served.sleep_other (h : Served on n ws) (hon : on c = false) :
    Served on n (ws ++ [⟨t, c, .asleep⟩]) := by
  simpa [Served, asleep, notified, hon] using h

/-- **A notification for one more unit.** -/
theorem Served.notifyOne {choice : Option ℕ} (h : Served on n ws)
    (hws : notifyOne on choice ws = some ws') : Served on (n + 1) ws' := by
  obtain ⟨rfl, hzero⟩ | ⟨l₁, l₂, t, c, hon, rfl, rfl⟩ := notifyOne_cases hws
  · intro hpos
    omega
  · simp only [Served, asleep_split, notified_split, sleepsOn_asleep, sleepsOn_notified,
      notifiedOn_asleep, notifiedOn_notified, hon] at h ⊢
    simp only [if_true, Bool.false_eq_true, if_false] at h ⊢
    omega

/-- A notification of another condition variable. -/
theorem Served.notifyOne_other {on' : κ → Bool} {choice : Option ℕ} (h : Served on n ws)
    (hother : ∀ c, on' c = true → on c = false) (hws : Waiter.notifyOne on' choice ws = some ws') :
    Served on n ws' := by
  obtain ⟨rfl, -⟩ | ⟨l₁, l₂, t, c, hon', rfl, rfl⟩ := notifyOne_cases hws
  · exact h
  · have hon := hother c hon'
    simp only [Served, asleep_split, notified_split, sleepsOn_asleep, sleepsOn_notified,
      notifiedOn_asleep, notifiedOn_notified, hon] at h ⊢
    exact h

/-- **After `notify_all`** nobody sleeps. -/
theorem Served.notifyAll (n : ℕ) : Served on n (notifyAll on ws) := by
  have hzero : asleep on (Waiter.notifyAll on ws) = 0 := by
    refine List.countP_eq_zero.mpr fun w hw => ?_
    obtain ⟨w', -, rfl⟩ := List.mem_map.mp hw
    split_ifs with hsleep
    · simp
    · exact hsleep
  intro hpos
  omega

/-- A waiter wakes up without a notification. -/
theorem Served.wakeUp (h : Served on n ws) (hws : wakeUp i ws = some ws') : Served on n ws' := by
  obtain ⟨l₁, l₂, t, c, rfl, rfl⟩ := wakeUp_cases hws
  simp only [Served, asleep_split, notified_split, sleepsOn_asleep, sleepsOn_spurious,
    notifiedOn_asleep, notifiedOn_spurious] at h ⊢
  simp only [Bool.false_eq_true, if_false] at h ⊢
  intro hpos
  exact h (by omega)

/-- **A waiter that is awake runs.** If it waited on this condition variable, one unit less
is left to be served. -/
theorem Served.resume (h : Served on n ws) (hws : resume i ws = some (w, ws')) :
    Served on (n - if on w.call then 1 else 0) ws' := by
  obtain ⟨hwake, l₁, l₂, rfl, rfl⟩ := resume_cases hws
  obtain ⟨t, c, wake⟩ := w
  simp only [Served, asleep_split, notified_split] at h ⊢
  intro hpos
  have hle := h (by omega)
  cases wake with
  | asleep => exact absurd rfl hwake
  | notified =>
      rw [notifiedOn_notified] at hle
      omega
  | spurious =>
      rw [notifiedOn_spurious, if_neg Bool.false_ne_true] at hle
      omega

end Waiter
