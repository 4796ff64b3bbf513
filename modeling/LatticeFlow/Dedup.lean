import Mathlib.Algebra.Group.Nat.Defs
import Mathlib.Order.WithBot
import LatticeFlow.PushPull

/-!
# Dedup and Dup

`Dedup` counts the copies of an element and hands on the last one of every `num_dups`. Two
versions of it are pushed into. `Dedup` of `click/` has no entry for an element of which it
has seen no copy, and erases the entry when it hands the element on; its constructor asserts
that `num_dups` is larger than one. `Dedup<Push>` of `pushpull/` makes an entry for every
element, and resets it to zero.

`Dup` makes so many copies, and `Dedup` undoes that, in whatever order the copies of different
elements arrive.

## Main results

* `dedup_versions_agree`: both versions hand on every `num_dups`-th copy.
* `dedup_undoes_dup`: `Dedup` after `Dup`, pushed, with any reordering in between, and pulled.
-/

namespace LatticeFlow

open OrderedMap

/-- `Dedup` of `click/`. -/
def clickDedup (T : Type) [LinearOrder T] (num_dups_ : ℕ) : PushOperator T T where
  State := OrderedMap T ℕ
  init := []
  push downstream s x :=
    match s.1.find less x with
    | none => (s.1.update less x fun _ => 1, s.2)
    | some c =>
        let counts_ := s.1.update less x fun _ => c + 1
        if c + 1 = num_dups_ then
          let down := downstream s.2 x
          (counts_.erase less x, down)
        else
          (counts_, s.2)

/-- Hand an element on if it is the last one of every `n` copies that have come. -/
def everyNth {T : Type} [DecidableEq T] (n : ℕ) (before : List T) (x : T) : List T :=
  if n ∣ (before ++ [x]).count x then [x] else []

/-- What an operator does with a sequence, into a sink: its members afterwards, and what it has
pushed. -/
def PushOperator.pushAll {α β : Type} (P : PushOperator α β) (xs : List α) : P.State × List β :=
  xs.foldl (P.push sinkPush) (P.init, [])

/-! ### Counting modulo the number of copies -/

section Counting

variable {T : Type} [LinearOrder T] {n k : ℕ}

/-- The last copy. -/
theorem succ_mod_of_eq (h : k % n + 1 = n) : (k + 1) % n = 0 := by
  rw [← Nat.mod_add_mod, h, Nat.mod_self]

/-- Any other copy. -/
theorem succ_mod_of_ne (hn : 0 < n) (h : k % n + 1 ≠ n) : (k + 1) % n = k % n + 1 := by
  have hlt := Nat.mod_lt k hn
  rw [← Nat.mod_add_mod, Nat.mod_eq_of_lt]
  omega

/-- The copy that completes `n` of them is handed on. -/
theorem everyNth_of_eq {before : List T} {x : T} (h : before.count x % n + 1 = n) :
    everyNth n before x = [x] := by
  refine if_pos (Nat.dvd_of_mod_eq_zero ?_)
  simpa using succ_mod_of_eq h

/-- Any other copy is not. -/
theorem everyNth_of_ne {before : List T} {x : T} (hn : 0 < n)
    (h : before.count x % n + 1 ≠ n) : everyNth n before x = [] := by
  refine if_neg fun hdvd => ?_
  have hzero := Nat.mod_eq_zero_of_dvd hdvd
  rw [List.count_append, List.count_singleton_self, succ_mod_of_ne hn h] at hzero
  omega

/-- The counts of copies after one more element. -/
theorem count_concat_mod (hn : 0 < n) (before : List T) (x y : T) :
    (before ++ [x]).count y % n =
      if y = x then (if before.count x % n + 1 = n then 0 else before.count x % n + 1)
      else before.count y % n := by
  split_ifs with hy hlast
  · subst hy
    simpa using succ_mod_of_eq hlast
  · subst hy
    simpa using succ_mod_of_ne hn hlast
  · simp [Ne.symm hy]

/-- Of the copies of an element, every `n`-th one is handed on. -/
theorem count_fromHistory_everyNth (xs : List T) (x : T) :
    (fromHistory (everyNth n) [] xs).count x = xs.count x / n := by
  induction xs using List.reverseRecOn with
  | nil => simp [fromHistory]
  | append_singleton xs y ih =>
      rw [fromHistory_concat, List.count_append, ih]
      by_cases hy : y = x
      · subst hy
        rw [List.count_append, List.count_singleton_self, Nat.succ_div, everyNth]
        simp only [List.count_append, List.count_singleton_self]
        split_ifs
        · simp
        · simp
      · have hother : (everyNth n xs y).count x = 0 := by
          rw [everyNth]
          split_ifs
          · simp [hy]
          · rfl
        simp [hother, hy]

end Counting

/-! ### The two versions -/

section Versions

variable {T : Type} [LinearOrder T] {n : ℕ}

/-- The count that a map holds of an element. -/
def counter {K : Type} (lt : K → K → Bool) (x : K) (counts_ : OrderedMap K ℕ) : ℕ :=
  (counts_.find lt x).getD 0

/-- What `dedupCount` does with one more copy of `x`. -/
structure CountsCopy {K : Type} (lt : K → K → Bool) (n : ℕ) (counts : OrderedMap K ℕ) (x : K) :
    Prop where
  last : counter lt x counts + 1 = n →
    (dedupCount lt n counts x).1 = true ∧ counter lt x (dedupCount lt n counts x).2 = 0
  other : counter lt x counts + 1 ≠ n → (dedupCount lt n counts x).1 = false ∧
    counter lt x (dedupCount lt n counts x).2 = counter lt x counts + 1
  frame : ∀ y, y ≠ x → counter lt y (dedupCount lt n counts x).2 = counter lt y counts

/-- Over a linear order the map counts each element for itself. -/
theorem countsCopy_less {K : Type} [LinearOrder K] (n : ℕ) (counts : OrderedMap K ℕ) (x : K) :
    CountsCopy less n counts x := by
  refine ⟨fun h => ?_, fun h => ?_, fun y hy => ?_⟩
  · simp only [counter] at h
    simp [counter, dedupCount, find_update, h]
  · simp only [counter] at h
    simp [counter, dedupCount, find_update, h]
  · simp only [counter, dedupCount]
    split_ifs
    · simp [hy, find_update]
    · simp [hy, find_update]

/-- Counting a copy keeps the map sorted. -/
theorem sorted_dedupCount {counts : OrderedMap T ℕ} (hm : Sorted counts) (n : ℕ) (x : T) :
    Sorted (dedupCount less n counts x).2 := by
  simp only [dedupCount]
  split_ifs
  · exact (hm.update _ _).update _ _
  · exact hm.update _ _

/-- The entries count the copies modulo `n`. -/
structure ResetInv (n : ℕ) (xs : List T) (counts : OrderedMap T ℕ) : Prop where
  sorted : Sorted counts
  counted : ∀ x, counter less x counts = xs.count x % n

/-- `Dedup<Push>` hands on every `n`-th copy. -/
theorem remembers_dedupPush (hn : 0 < n) :
    (dedupPush (less : T → T → Bool) n).Remembers (everyNth n) (ResetInv n) where
  init := ⟨sorted_nil, fun x => (Nat.zero_mod n).symm⟩
  step downstream before counts s x h := by
    obtain ⟨hlast, hother, hframe⟩ := countsCopy_less n counts x
    have hsorted := sorted_dedupCount h.sorted n x
    rw [h.counted] at hlast hother
    have hcounts : ResetInv n (before ++ [x]) (dedupCount less n counts x).2 := by
      refine ⟨hsorted, fun y => ?_⟩
      rw [count_concat_mod hn]
      split_ifs with hy hcount
      · rw [hy]
        exact (hlast hcount).2
      · rw [hy]
        exact (hother hcount).2
      · rw [hframe y hy, h.counted]
    refine ⟨_, ?_, hcounts⟩
    simp only [dedupPush]
    by_cases hcount : before.count x % n + 1 = n
    · rw [everyNth_of_eq hcount]
      rcases hd : dedupCount less n counts x with ⟨b, counts'⟩
      rw [hd] at hlast
      obtain rfl : b = true := (hlast hcount).1
      rfl
    · rw [everyNth_of_ne hn hcount]
      rcases hd : dedupCount less n counts x with ⟨b, counts'⟩
      rw [hd] at hother
      obtain rfl : b = false := (hother hcount).1
      rfl

/-- The entries count the copies modulo `n`, and an entry of zero is absent. -/
structure EraseInv (n : ℕ) (xs : List T) (counts : OrderedMap T ℕ) : Prop where
  sorted : Sorted counts
  counted : ∀ x, counts.find less x = if xs.count x % n = 0 then none else some (xs.count x % n)

namespace EraseInv

variable {before : List T} {counts : OrderedMap T ℕ} {x : T}

/-- No counts, no copies. -/
theorem init (n : ℕ) : EraseInv n ([] : List T) [] :=
  ⟨sorted_nil, fun x => by simp [find]⟩

/-- A copy that is not the last one. -/
theorem count (h : EraseInv n before counts) (hn : 0 < n) (hne : before.count x % n + 1 ≠ n) :
    EraseInv n (before ++ [x]) (counts.update less x fun _ => before.count x % n + 1) where
  sorted := h.sorted.update _ _
  counted y := by
    rw [find_update, count_concat_mod hn, if_neg hne]
    by_cases hy : y = x
    · simp [hy]
    · simp [hy, h.counted]

/-- The last copy. -/
theorem erase (h : EraseInv n before counts) (hn : 0 < n) (hlast : before.count x % n + 1 = n)
    (f : Option ℕ → ℕ) :
    EraseInv n (before ++ [x]) ((counts.update less x f).erase less x) where
  sorted := (h.sorted.update _ _).erase x
  counted y := by
    rw [erase_update, h.sorted.find_erase, count_concat_mod hn, if_pos hlast]
    by_cases hy : y = x
    · simp [hy]
    · simp [hy, h.counted]

end EraseInv

/-- The `Dedup` of `click/` hands on every `n`-th copy, for more than one copy. -/
theorem remembers_clickDedup (hn : 2 ≤ n) :
    (clickDedup T n).Remembers (everyNth n) (EraseInv n) where
  init := .init n
  step downstream before counts s x h := by
    have hfind := h.counted x
    simp only [clickDedup]
    by_cases hzero : before.count x % n = 0
    · -- There is no entry; the first copy is not the last one.
      have hne : before.count x % n + 1 ≠ n := by omega
      have hcounts := h.count (by omega) hne
      rw [if_pos hzero] at hfind
      rw [hzero] at hcounts
      rw [hfind, everyNth_of_ne (by omega) hne]
      exact ⟨_, rfl, hcounts⟩
    · rw [if_neg hzero] at hfind
      rw [hfind]
      by_cases hlast : before.count x % n + 1 = n
      · rw [everyNth_of_eq hlast]
        exact ⟨_, if_pos hlast, h.erase (by omega) hlast _⟩
      · rw [everyNth_of_ne (by omega) hlast]
        exact ⟨_, if_neg hlast, h.count (by omega) hlast⟩

/-- **Both versions of `Dedup` agree.** Whatever is pushed into them, they hand on an element
exactly if the number of its copies that have come, with this one, is a multiple of
`num_dups`. -/
theorem dedup_versions_agree (T : Type) [LinearOrder T] (n : ℕ) (hn : 2 ≤ n) :
    (clickDedup T n).Pushes (fromHistory (everyNth n) []) ∧
      (dedupPush (less : T → T → Bool) n).Pushes (fromHistory (everyNth n) []) :=
  ⟨(remembers_clickDedup hn).pushes, (remembers_dedupPush (by omega)).pushes⟩

/-- Three copies each of `42`, `1` and `2`, of which the last two arrive in turns. -/
theorem dedup_versions_agree_three_copies :
    ((clickDedup ℕ 3).pushAll [42, 42, 42, 1, 2, 1, 2, 1, 2]).2 = [42, 1, 2] ∧
      ((dedupPush (less : ℕ → ℕ → Bool) 3).pushAll [42, 42, 42, 1, 2, 1, 2, 1, 2]).2 =
        [42, 1, 2] := by
  obtain ⟨hclick, hpushpull⟩ := dedup_versions_agree ℕ 3 (by omega)
  refine ⟨(hclick _ sinkPush [] _).trans ?_, (hpushpull _ sinkPush [] _).trans ?_⟩
  · decide
  · decide

end Versions

/-! ### Dedup after Dup, pushed -/

section Pushed

variable {T : Type} [LinearOrder T] {n : ℕ}

/-- `Dup<Push>` pushes `n` copies of each element. -/
theorem pushAll_dupPush {T : Type} (n : ℕ) (xs : List T) :
    ((dupPush T n).pushAll xs).2 = xs.flatMap (List.replicate n) := by
  induction xs using List.reverseRecOn with
  | nil => rfl
  | append_singleton xs x ih =>
      rw [List.flatMap_append, List.flatMap_singleton, ← ih, PushOperator.pushAll,
        List.foldl_append, ← foldl_sinkPush (List.replicate n x), foldl_replicate]
      rfl

/-- With `n` copies of each element there are `n` times as many of each. -/
theorem count_flatMap_replicate (n : ℕ) (xs : List T) (x : T) :
    (xs.flatMap (List.replicate n)).count x = n * xs.count x := by
  induction xs with
  | nil => rfl
  | cons y xs ih =>
      rw [List.flatMap_cons, List.count_append, ih, List.count_replicate, List.count_cons]
      by_cases hy : y = x
      · simp [hy, Nat.mul_add, Nat.add_comm]
      · simp [hy]

/-- `counts_` of a new `Dedup<Push>` after a sequence has been pushed into it. -/
def countsAfter (n : ℕ) (ys : List T) : OrderedMap T ℕ :=
  ((dedupPush less n).pushAll ys).1

/-- What `Dedup<Push>` does with a sequence. -/
theorem pushAll_dedupPush (hn : 0 < n) (ys : List T) :
    ((dedupPush less n).pushAll ys).2 = fromHistory (everyNth n) [] ys ∧
      ResetInv n ys (countsAfter n ys) := by
  obtain ⟨m, hys, hm⟩ := (remembers_dedupPush hn).foldl_push sinkPush [] ys
  rw [foldl_sinkPush, List.nil_append] at hys
  rw [countsAfter, PushOperator.pushAll, hys]
  exact ⟨rfl, hm⟩

/-- Copies before the last one. -/
theorem fromHistory_everyNth_replicate (hn : 0 < n) {before : List T} {x : T} (i : ℕ)
    (hi : before.count x % n + i < n) :
    fromHistory (everyNth n) before (List.replicate i x) = [] := by
  induction i generalizing before with
  | zero => rfl
  | succ i ih =>
      have hne : before.count x % n + 1 ≠ n := by omega
      have hcount : (before ++ [x]).count x % n = before.count x % n + 1 := by
        simpa using succ_mod_of_ne hn hne
      rw [List.replicate_succ, fromHistory, everyNth_of_ne hn hne, List.nil_append]
      exact ih (by omega)

/-- All copies of an element. -/
theorem fromHistory_everyNth_copies (hn : 0 < n) {before : List T} {x : T}
    (hbefore : before.count x % n = 0) :
    fromHistory (everyNth n) before (List.replicate n x) = [x] := by
  obtain ⟨i, rfl⟩ : ∃ i, n = i + 1 := ⟨n - 1, by omega⟩
  have hlast : (before ++ List.replicate i x).count x % (i + 1) + 1 = i + 1 := by
    rw [List.count_append, List.count_replicate_self, ← Nat.mod_add_mod, hbefore, Nat.zero_add,
      Nat.mod_eq_of_lt (Nat.lt_succ_self i)]
  rw [List.replicate_succ', fromHistory_append, fromHistory_everyNth_replicate hn i (by omega),
    List.nil_append, fromHistory, everyNth_of_eq hlast]
  rfl

/-- Every `n`-th copy of `n` copies of each element gives the elements back. -/
theorem fromHistory_everyNth_flatMap (hn : 0 < n) (xs : List T) :
    fromHistory (everyNth n) [] (xs.flatMap (List.replicate n)) = xs := by
  induction xs using List.reverseRecOn with
  | nil => rfl
  | append_singleton xs x ih =>
      have hbefore : (xs.flatMap (List.replicate n)).count x % n = 0 := by
        rw [count_flatMap_replicate, Nat.mul_mod_right]
      rw [List.flatMap_append, List.flatMap_singleton, fromHistory_append, ih, List.nil_append,
        fromHistory_everyNth_copies hn hbefore]

/-- In any order of the copies. -/
theorem dedupPush_perm (hn : 0 < n) {xs ys : List T}
    (hperm : ys.Perm (xs.flatMap (List.replicate n))) :
    ((dedupPush less n).pushAll ys).2.Perm xs ∧ ∀ e ∈ countsAfter n ys, e.2 = 0 := by
  obtain ⟨hout, hinv⟩ := pushAll_dedupPush hn ys
  have hcount : ∀ x, ys.count x = n * xs.count x := fun x => by
    rw [hperm.count_eq, count_flatMap_replicate]
  constructor
  · rw [hout]
    refine List.perm_iff_count.mpr fun x => ?_
    rw [count_fromHistory_everyNth, hcount, Nat.mul_div_cancel_left _ hn]
  · rintro ⟨x, c⟩ he
    have hc := hinv.counted x
    rw [counter, hinv.sorted.find_eq_some_iff.mpr he, hcount, Nat.mul_mod_right] at hc
    exact hc

end Pushed

/-! ### Dedup after Dup, pulled -/

section Pulled

variable {T S : Type} [LinearOrder T] {n : ℕ}

/-- The order of `boost::optional` has nothing below everything else. -/
theorem optionalLess_eq :
    optionalLess (less : T → T → Bool) = (less : WithBot T → WithBot T → Bool) := by
  funext x y
  cases x with
  | none =>
      cases y with
      | none => rfl
      | some y => exact (decide_eq_true (WithBot.bot_lt_coe y)).symm
  | some x =>
      cases y with
      | none => exact (decide_eq_false (WithBot.not_lt_bot (x : WithBot T))).symm
      | some y => exact (decide_eq_decide.mpr WithBot.coe_lt_coe).symm

/-- Optional elements are counted each for itself as well, and so is `none`. -/
theorem countsCopy_optionalLess (n : ℕ) (counts : OrderedMap (Option T) ℕ) (o : Option T) :
    CountsCopy (optionalLess less) n counts o := by
  rw [optionalLess_eq]
  exact countsCopy_less (K := WithBot T) n counts o

/-- A pull of `Dedup<Pull>` counts what it has got, and answers with it or not at all. -/
theorem dedupPull_pull {upstream : S → Option T × S} {counts : OrderedMap (Option T) ℕ}
    {o : Option T} {s s' : S} (hup : upstream s = (o, s')) (n : ℕ) :
    (dedupPull less n).pull upstream (counts, s) =
      (if (dedupCount (optionalLess less) n counts o).1 then o else none,
        ((dedupCount (optionalLess less) n counts o).2, s')) := by
  simp only [dedupPull, hup]
  rcases dedupCount (optionalLess less) n counts o with ⟨b, counts'⟩
  cases b with
  | true => rfl
  | false => rfl

/-- Equal answers to several pulls are equal answers to the first and to the others. -/
theorem asks_eq_replicate {α : Type} {upstream : S → Option α × S} {o : Option α} {s s' : S}
    {i : ℕ} (h : asks upstream (i + 1) s = (List.replicate (i + 1) o, s')) :
    ∃ s₁, upstream s = (o, s₁) ∧ asks upstream i s₁ = (List.replicate i o, s') := by
  rcases hs : upstream s with ⟨o₁, s₁⟩
  simp only [asks, hs, List.replicate_succ, Prod.mk.injEq, List.cons.injEq] at h
  obtain ⟨⟨rfl, hos⟩, hs'⟩ := h
  exact ⟨s₁, rfl, Prod.ext hos hs'⟩

/-- The pulls that get the rest of the copies return nothing, until the last one returns the
element. -/
theorem asks_dedupPull_copies {upstream : S → Option T × S} {o : Option T} {s' : S} (i : ℕ)
    (counts : OrderedMap (Option T) ℕ) {s : S}
    (hup : asks upstream (i + 1) s = (List.replicate (i + 1) o, s'))
    (hi : counter (optionalLess less) o counts + (i + 1) = n) :
    ∃ counts' : OrderedMap (Option T) ℕ,
      asks ((dedupPull less n).pull upstream) (i + 1) (counts, s) =
        (List.replicate i none ++ [o], (counts', s')) ∧
      counter (optionalLess less) o counts' = 0 ∧
      ∀ o', o' ≠ o → counter (optionalLess less) o' counts' =
        counter (optionalLess less) o' counts := by
  induction i generalizing counts s with
  | zero =>
      obtain ⟨hlast, -, hframe⟩ := countsCopy_optionalLess n counts o
      obtain ⟨htrue, hzero⟩ := hlast hi
      obtain ⟨s₁, hs, hrest⟩ := asks_eq_replicate hup
      obtain rfl : s₁ = s' := congrArg Prod.snd hrest
      refine ⟨_, ?_, hzero, hframe⟩
      rw [asks, dedupPull_pull hs, htrue]
      rfl
  | succ i ih =>
      obtain ⟨-, hother, hframe⟩ := countsCopy_optionalLess n counts o
      obtain ⟨hfalse, hcount⟩ := hother (by omega)
      obtain ⟨s₁, hs, hrest⟩ := asks_eq_replicate hup
      obtain ⟨counts', hasks, hzero, hframe'⟩ :=
        ih (dedupCount (optionalLess less) n counts o).2 hrest (by omega)
      refine ⟨counts', ?_, hzero, fun o' ho' => (hframe' o' ho').trans (hframe o' ho')⟩
      rw [asks, dedupPull_pull hs, hfalse]
      exact congrArg (fun r => (none :: r.1, r.2)) hasks

/-- One round. -/
theorem asks_dedupPull_round (hn : 1 ≤ n) {upstream : S → Option T × S} {o : Option T} {s s' : S}
    {counts : OrderedMap (Option T) ℕ}
    (hcounts : ∀ o, counter (optionalLess less) o counts = 0)
    (hup : asks upstream n s = (List.replicate n o, s')) :
    ∃ counts' : OrderedMap (Option T) ℕ,
      asks ((dedupPull less n).pull upstream) n (counts, s) =
        (List.replicate (n - 1) none ++ [o], (counts', s')) ∧
      ∀ o, counter (optionalLess less) o counts' = 0 := by
  obtain ⟨i, rfl⟩ : ∃ i, n = i + 1 := ⟨n - 1, by omega⟩
  obtain ⟨counts', hround, hzero, hframe⟩ :=
    asks_dedupPull_copies i counts hup (by rw [hcounts, Nat.zero_add])
  refine ⟨counts', hround, fun o' => ?_⟩
  by_cases ho : o' = o
  · rw [ho, hzero]
  · rw [hframe o' ho, hcounts]

/-- So many rounds of `Dedup<Pull>` over `Dup<Pull>`. -/
theorem asks_dedupPull_dupPull (hn : 1 ≤ n) (upstream : S → Option T × S) (k : ℕ)
    (counts : OrderedMap (Option T) ℕ) (p : DupPull T) (s : S)
    (hcounts : ∀ o, counter (optionalLess less) o counts = 0)
    (hp : p.num_dups_sent_ = 0 ∨ p.num_dups_sent_ = n) :
    (asks ((dedupPull less n).pull ((dupPull T n).pull upstream)) (n * k) (counts, (p, s))).1 =
        (asks upstream k s).1.flatMap (fun o => List.replicate (n - 1) none ++ [o]) ∧
      (asks ((dedupPull less n).pull ((dupPull T n).pull upstream)) (n * k)
        (counts, (p, s))).2.2.2 = (asks upstream k s).2 := by
  induction k generalizing counts p s with
  | zero => exact ⟨rfl, rfl⟩
  | succ k ih =>
      rcases hs : upstream s with ⟨o, s₁⟩
      obtain ⟨counts', hround, hcounts'⟩ :=
        asks_dedupPull_round hn hcounts (asks_dupPull hn hp hs)
      obtain ⟨hanswers, hupstream⟩ := ih counts' ⟨n, o⟩ s₁ hcounts' (.inr rfl)
      rw [Nat.mul_succ, Nat.add_comm, asks_add, hround]
      simp only [asks, hs, List.flatMap_cons]
      exact ⟨congrArg (List.replicate (n - 1) none ++ [o] ++ ·) hanswers, hupstream⟩

end Pulled

/-- **`Dedup` undoes `Dup`.** If the copies that `Dup<Push>` makes of some elements are pushed
into a new `Dedup<Push>` in any order, it hands on the elements in some order, and all of its
counts are zero; in the order of `Dup<Push>` it hands them on in their order. And so many
rounds of `num_dups` pulls of `Dedup<Pull>` over `Dup<Pull>` pull as often upstream, and
return the answers, each after nothing but holes. -/
theorem dedup_undoes_dup (T : Type) [LinearOrder T] (n : ℕ) (hn : 1 ≤ n) :
    (∀ xs ys : List T, ys.Perm ((dupPush T n).pushAll xs).2 →
      ((dedupPush less n).pushAll ys).2.Perm xs ∧ ∀ e ∈ countsAfter n ys, e.2 = 0) ∧
    (∀ xs : List T, ((dedupPush less n).pushAll ((dupPush T n).pushAll xs).2).2 = xs) ∧
    ∀ (S : Type) (upstream : S → Option T × S) (s : S) (k : ℕ),
      let r := asks (((dupPull T n).comp (dedupPull less n)).pull upstream) (n * k)
        (((dupPull T n).comp (dedupPull less n)).init, s)
      r.1 = (asks upstream k s).1.flatMap (fun o => List.replicate (n - 1) none ++ [o]) ∧
        r.2.2 = (asks upstream k s).2 := by
  refine ⟨fun xs ys hperm => ?_, fun xs => ?_, fun S upstream s k => ?_⟩
  · rw [pushAll_dupPush] at hperm
    exact dedupPush_perm hn hperm
  · rw [pushAll_dupPush, (pushAll_dedupPush hn _).1, fromHistory_everyNth_flatMap hn]
  · have hcomp := (dupPull T n).asks_comp (dedupPull less n) upstream (n * k) (dupPull T n).init
      (dedupPull less n).init s
    simp only [PullOperator.comp] at hcomp ⊢
    rw [hcomp]
    exact asks_dedupPull_dupPull hn upstream k [] {} s (fun _ => rfl) (.inl rfl)

/-- Two copies each of `1`, `2` and `1`, in another order; and four pulls over an upstream that
answers `7` and then nothing. -/
theorem dedup_undoes_dup_two_copies :
    ((dedupPush (less : ℕ → ℕ → Bool) 2).pushAll [2, 1, 1, 1, 2, 1]).2.Perm [1, 2, 1] ∧
      (∀ e ∈ countsAfter 2 [2, 1, 1, 1, 2, 1], e.2 = 0) ∧
      (asks (((dupPull ℕ 2).comp (dedupPull less 2)).pull sourcePull) 4
        (((dupPull ℕ 2).comp (dedupPull less 2)).init, [some 7])).1 =
          [none, some 7, none, none] := by
  obtain ⟨hpushed, -, hpulled⟩ := dedup_undoes_dup ℕ 2 (by omega)
  obtain ⟨hperm, hzero⟩ := hpushed [1, 2, 1] [2, 1, 1, 1, 2, 1] (by decide)
  exact ⟨hperm, hzero, (hpulled _ sourcePull [some 7] 2).1⟩

end LatticeFlow
