import LatticeFlow.Dedup
import LatticeFlow.Lib.Machine
import LatticeFlow.PushGraph
import LatticeFlow.RoundRobin

/-!
# Graphs of Pull Elements

The `Pull` versions of the elements of `pushpull/`, wired up without cycles: `Id`, `Map`,
`Filter`, `Dup`, `Dedup`, `Counter`, `RoundRobin`, `Drop`, `Lambda`, `Register` and `Queue`. An
element gets the pointers to its upstreams when it is constructed, so these lead to elements
that have been constructed before it. Several elements may have the same upstream, and then
each of them gets only what the others have not got.

As in `LatticeFlow.PushGraph`, elements are numbered in the order of their construction, a
pointer is a number, and all values are of one type. The function of a `Lambda` is given by
what its calls return, and does not pull from the graph. The copies that a `Dup` of no copies
has sent, and the counts of a `Dedup` of none, would overflow, which is left out, as is a
`RoundRobin` with more upstreams than an `int` can count. A `Queue` is pushed into from
outside. It hides that it is a `Puller`, so that in the source only its owner can pull it;
nothing here rests on that.

A pull returns when everything that it causes upstream has happened. The log of a graph lists
all pulls, each with its answer, in the order in which they returned. What an element has
seen is the part of the log that it takes part in: the answers that it has got from its
upstreams, and those that it has given.

## Main results

* `PullElement.pullsAs`: what each element asks for and answers in view of what it has seen.
* `pull_spec`: one pull from outside, or from an element, and all that it causes.
* `pullGraph_follows`: in every run of every graph, each element has asked and answered as it
  is to, and its members are those of what it has seen.
-/

namespace LatticeFlow

/-! ### Elements -/

section Elements

variable {V : Type}

/-- A puller: its members, and its `pull` over the upstreams at its pointers. -/
structure Puller (V : Type) where
  State : Type
  init : State
  pull {S : Type} (upstream : ℕ → S → Option V × S) : State × S → Option V × (State × S)

/-- A pull operator with one upstream, at a pointer. -/
def PullOperator.from (Q : PullOperator V V) (upstream_ : ℕ) : Puller V where
  State := Q.State
  init := Q.init
  pull upstream s := Q.pull (upstream upstream_) s

/-- `Counter<Pull>`; the state is `count_`, an `int`. -/
def counterPull (V : Type) : PullOperator V V where
  State := ℤ
  init := 0
  pull upstream s :=
    let (x, up) := upstream s.2
    (x, (increment s.1, up))

/-- `Drop<Pull>`. -/
def dropPull (V : Type) : Puller V where
  State := Unit
  init := ()
  pull _ s := (none, s)

/-- `Lambda<Pull>`, with what the calls of `f_` return; the state is the number of calls. -/
def lambdaPull (f_ : ℕ → Option V) : Puller V where
  State := ℕ
  init := 0
  pull _ s := (f_ s.1, (s.1 + 1, s.2))

/-- `Register<Pull>`; the state is `x_`. -/
def registerPull (x : V) : Puller V where
  State := V
  init := x
  pull _ s := (some s.1, s)

/-- `Queue`, as a `Puller`. -/
def queuePuller (V : Type) : Puller V where
  State := List V
  init := []
  pull _ s :=
    let (x, xs_) := queuePull s.1
    (x, (xs_, s.2))

/-- `RoundRobin<Pull>`; the state is `index_`. -/
def roundRobinPull (upstreams_ : List ℕ) : Puller V where
  State := ℕ
  init := 0
  pull upstream s :=
    if 0 < upstreams_.length then
      match upstreams_[s.1]? with
      | some d =>
          let (x, up) := upstream d s.2
          (x, ((s.1 + 1) % upstreams_.length, up))
      -- The index is beyond the end of the vector.
      | none => (none, s)
    else (none, s)

/-- An element, with the pointers to its upstreams. -/
inductive PullElement (V : Type)
  | id (upstream_ : ℕ)
  | map (f_ : V → V) (upstream_ : ℕ)
  | filter (predicate_ : V → Bool) (upstream_ : ℕ)
  | dup (num_dups_ : ℕ) (upstream_ : ℕ)
  | dedup (num_dups_ : ℕ) (upstream_ : ℕ)
  | counter (upstream_ : ℕ)
  | roundRobin (upstreams_ : List ℕ)
  | drop
  | lambda (f_ : ℕ → Option V)
  | register (x : V)
  | queue

/-- What an element takes part in. -/
inductive Seen (V : Type)
  /-- A value is pushed into it. -/
  | pushed (x : V)
  /-- Its pull of an upstream returns. -/
  | got (upstream_ : ℕ) (x : Option V)
  /-- It returns from a pull. -/
  | gave (x : Option V)
  deriving DecidableEq, Repr

/-- The values that have been pushed into an element. -/
def valuesPushed (seen : List (Seen V)) : List V :=
  seen.filterMap fun
    | .pushed x => some x
    | _ => none

/-- The answers that it has got from its upstreams. -/
def answersGot (seen : List (Seen V)) : List (Option V) :=
  seen.filterMap fun
    | .got _ x => some x
    | _ => none

/-- The answers that it has given. -/
def answersGiven (seen : List (Seen V)) : List (Option V) :=
  seen.filterMap fun
    | .gave x => some x
    | _ => none

/-- The last answer that it has got. -/
def lastGot (seen : List (Seen V)) : Option V :=
  (answersGot seen).getLast?.join

namespace PullElement

/-- The pointers of an element. -/
def upstreams : PullElement V → List ℕ
  | id d | map _ d | filter _ d | dup _ d | dedup _ d | counter d => [d]
  | roundRobin ds => ds
  | drop | lambda _ | register _ | queue => []

variable [LinearOrder V]

/-- The members and the `pull` of an element. -/
def op : PullElement V → Puller V
  | id d => (idPull V).from d
  | map f_ d => (mapPull f_).from d
  | filter predicate_ d => (filterPull predicate_).from d
  | dup num_dups_ d => (dupPull V num_dups_).from d
  | dedup num_dups_ d => (dedupPull OrderedMap.less num_dups_).from d
  | counter d => (counterPull V).from d
  | roundRobin ds => roundRobinPull ds
  | drop => dropPull V
  | lambda f_ => lambdaPull f_
  | register x => registerPull x
  | queue => queuePuller V

/-- The members of an element after a push, if it can be pushed into. -/
def pushed : (e : PullElement V) → e.op.State → V → Option e.op.State
  | queue, xs_, x => some (queuePush (T := V) xs_ x)
  | _, _, _ => none

/-- Which upstream an element that has seen so much asks in its next pull, if any. -/
def asks : PullElement V → List (Seen V) → Option ℕ
  | id d, _ | map _ d, _ | filter _ d, _ | dedup _ d, _ | counter d, _ => some d
  | dup num_dups_ d, seen => if (answersGiven seen).length % num_dups_ = 0 then some d else none
  | roundRobin ds, seen => ds[(answersGiven seen).length % ds.length]?
  | drop, _ | lambda _, _ | register _, _ | queue, _ => none

/-- What it then answers; the answer of the upstream is the last one that it has got. -/
def answers : PullElement V → List (Seen V) → Option V
  | id _, seen | dup _ _, seen | counter _, seen => lastGot seen
  | map f_ _, seen => (lastGot seen).map f_
  | filter predicate_ _, seen => (lastGot seen).filter predicate_
  | dedup num_dups_ _, seen =>
      if num_dups_ ∣ (answersGot seen).count (lastGot seen) then lastGot seen else none
  | roundRobin ds, seen => if ds = [] then none else lastGot seen
  | drop, _ => none
  | lambda f_, seen => f_ (answersGiven seen).length
  | register x, _ => some x
  | queue, seen => (valuesPushed seen)[(answersGiven seen).reduceOption.length]?

/-- The members of an element that has seen so much. -/
def Knows : (e : PullElement V) → List (Seen V) → e.op.State → Prop
  | dup num_dups_ _, seen, (m : DupPull V) =>
      m.buf_ = lastGot seen ∧ m.num_dups_sent_ =
        if (answersGiven seen).length = 0 then 0
        else ((answersGiven seen).length - 1) % num_dups_ + 1
  | dedup num_dups_ _, seen, counts_ =>
      ∀ o, LatticeFlow.counter (optionalLess OrderedMap.less) o counts_ =
        (answersGot seen).count o % num_dups_
  | counter _, seen, count_ => count_ = countedTo (answersGiven seen).length
  | roundRobin ds, seen, index_ =>
      index_ = (if ds = [] then 0 else (answersGiven seen).length % ds.length : ℕ)
  | lambda _, seen, calls => calls = (answersGiven seen).length
  | register x, _, x_ => x_ = x
  | queue, seen, (xs_ : List V) => valuesPushed seen = (answersGiven seen).reduceOption ++ xs_
  | _, _, _ => True

/-- What an element has seen is what it is to see: in a pull it asks one upstream or none, and
then answers. -/
inductive Follows (e : PullElement V) : List (Seen V) → Prop
  | nil : Follows e []
  | pushed {seen : List (Seen V)} (x : V) : Follows e seen → Follows e (seen ++ [.pushed x])
  | gave {seen : List (Seen V)} : Follows e seen → e.asks seen = none →
      Follows e (seen ++ [.gave (e.answers seen)])
  | asked {seen : List (Seen V)} {d : ℕ} (x : Option V) : Follows e seen →
      e.asks seen = some d →
      Follows e (seen ++ [.got d x] ++ [.gave (e.answers (seen ++ [.got d x]))])

end PullElement

/-! ### What has been seen -/

section Seen

variable (seen later : List (Seen V)) (d : ℕ) (x : Option V) (y : V)

@[simp] theorem valuesPushed_append :
    valuesPushed (seen ++ later) = valuesPushed seen ++ valuesPushed later :=
  List.filterMap_append

@[simp] theorem answersGot_append :
    answersGot (seen ++ later) = answersGot seen ++ answersGot later :=
  List.filterMap_append

@[simp] theorem answersGiven_append :
    answersGiven (seen ++ later) = answersGiven seen ++ answersGiven later :=
  List.filterMap_append

@[simp] theorem valuesPushed_nil : valuesPushed ([] : List (Seen V)) = [] := rfl

@[simp] theorem valuesPushed_pushed :
    valuesPushed (.pushed y :: seen) = y :: valuesPushed seen := rfl

@[simp] theorem valuesPushed_got : valuesPushed (.got d x :: seen) = valuesPushed seen := rfl

@[simp] theorem valuesPushed_gave : valuesPushed (.gave x :: seen) = valuesPushed seen := rfl

@[simp] theorem answersGot_nil : answersGot ([] : List (Seen V)) = [] := rfl

@[simp] theorem answersGot_pushed : answersGot (.pushed y :: seen) = answersGot seen := rfl

@[simp] theorem answersGot_got : answersGot (.got d x :: seen) = x :: answersGot seen := rfl

@[simp] theorem answersGot_gave : answersGot (.gave x :: seen) = answersGot seen := rfl

@[simp] theorem answersGiven_nil : answersGiven ([] : List (Seen V)) = [] := rfl

@[simp] theorem answersGiven_pushed : answersGiven (.pushed y :: seen) = answersGiven seen := rfl

@[simp] theorem answersGiven_got : answersGiven (.got d x :: seen) = answersGiven seen := rfl

@[simp] theorem answersGiven_gave :
    answersGiven (.gave x :: seen) = x :: answersGiven seen := rfl

@[simp] theorem lastGot_got : lastGot (seen ++ [.got d x]) = x := by
  simp [lastGot]

end Seen

/-! ### What an element does -/

variable [LinearOrder V]

/-- In a pull, over any upstreams, an element that knows what it has seen asks and answers as
it is to, and then knows what it has seen. -/
structure PullElement.PullsAs (e : PullElement V) : Prop where
  init : e.Knows [] e.op.init
  pushed {seen : List (Seen V)} {m m' : e.op.State} (x : V) :
    e.Knows seen m → e.pushed m x = some m' → e.Knows (seen ++ [.pushed x]) m'
  gives {S : Type} (upstream : ℕ → S → Option V × S) (s : S) {seen : List (Seen V)}
    {m : e.op.State} : e.Knows seen m → e.asks seen = none →
    ∃ m', e.op.pull upstream (m, s) = (e.answers seen, (m', s)) ∧
      e.Knows (seen ++ [.gave (e.answers seen)]) m'
  asks {S : Type} (upstream : ℕ → S → Option V × S) (s : S) {seen : List (Seen V)}
    {m : e.op.State} {d : ℕ} : e.Knows seen m → e.asks seen = some d →
    let got := seen ++ [.got d (upstream d s).1]
    ∃ m', e.op.pull upstream (m, s) = (e.answers got, (m', (upstream d s).2)) ∧
      e.Knows (got ++ [.gave (e.answers got)]) m'

/-- An element that cannot be pushed into, and always asks its upstream. -/
theorem pullsAs_of_asks {e : PullElement V} {d : ℕ} (hpushed : ∀ m x, e.pushed m x = none)
    (hasks : ∀ seen, e.asks seen = some d) (hinit : e.Knows [] e.op.init)
    (h : ∀ {S : Type} (upstream : ℕ → S → Option V × S) (s : S) (seen : List (Seen V))
      (m : e.op.State), e.Knows seen m →
      let got := seen ++ [.got d (upstream d s).1]
      ∃ m', e.op.pull upstream (m, s) = (e.answers got, (m', (upstream d s).2)) ∧
        e.Knows (got ++ [.gave (e.answers got)]) m') : e.PullsAs where
  init := hinit
  pushed x _ hpush := by
    rw [hpushed] at hpush
    cases hpush
  gives upstream s seen m _ hnone := by
    rw [hasks] at hnone
    cases hnone
  asks upstream s seen m d' hm hsome := by
    obtain rfl := Option.some.inj ((hasks seen).symm.trans hsome)
    exact h upstream s seen m hm

/-- An element that, besides, has no members that change. -/
theorem pullsAs_of_forwards {e : PullElement V} {d : ℕ} (hpushed : ∀ m x, e.pushed m x = none)
    (hasks : ∀ seen, e.asks seen = some d) (hknows : ∀ seen m, e.Knows seen m)
    (h : ∀ {S : Type} (upstream : ℕ → S → Option V × S) (s : S) (seen : List (Seen V))
      (m : e.op.State), e.op.pull upstream (m, s) =
        (e.answers (seen ++ [.got d (upstream d s).1]), (m, (upstream d s).2))) : e.PullsAs := by
  refine pullsAs_of_asks hpushed hasks (hknows _ _) ?_
  intro S upstream s seen m _
  exact ⟨m, h upstream s seen m, hknows _ m⟩

/-- An element that asks nobody. -/
theorem pullsAs_of_gives {e : PullElement V} (hasks : ∀ seen, e.asks seen = none)
    (hinit : e.Knows [] e.op.init)
    (hpushed : ∀ {seen m m'} (x : V), e.Knows seen m → e.pushed m x = some m' →
      e.Knows (seen ++ [.pushed x]) m')
    (h : ∀ {S : Type} (upstream : ℕ → S → Option V × S) (s : S) (seen : List (Seen V))
      (m : e.op.State), e.Knows seen m →
      ∃ m', e.op.pull upstream (m, s) = (e.answers seen, (m', s)) ∧
        e.Knows (seen ++ [.gave (e.answers seen)]) m') : e.PullsAs where
  init := hinit
  pushed := hpushed
  gives upstream s seen m hm _ := h upstream s seen m hm
  asks upstream s seen m d _ hsome := by
    rw [hasks] at hsome
    cases hsome

/-- Counting modulo `n` starts again when it arrives there. -/
theorem succ_mod_eq_ite (n k : ℕ) :
    (k + 1) % n = if k % n + 1 = n then 0 else k % n + 1 := by
  split_ifs with h
  · exact succ_mod_of_eq h
  · rcases Nat.eq_zero_or_pos n with rfl | hn
    · simp
    · exact succ_mod_of_ne hn h

/-- The members of `Dup` after `k` pulls, of which the last one that has asked has got
`buf_`. -/
def dupMembers (n k : ℕ) (buf_ : Option V) : DupPull V :=
  ⟨if k = 0 then 0 else (k - 1) % n + 1, buf_⟩

omit [LinearOrder V] in
/-- A pull of `Dup<Pull>` in view of how often it has been pulled. -/
theorem dupPull_pull {S : Type} (upstream : S → Option V × S) (n k : ℕ) (buf_ : Option V) (s : S) :
    (dupPull V n).pull upstream (dupMembers n k buf_, s) =
      if k % n = 0 then
        ((upstream s).1, (dupMembers n (k + 1) (upstream s).1, (upstream s).2))
      else (buf_, (dupMembers n (k + 1) buf_, s)) := by
  have hreset : (if (dupMembers n k buf_).num_dups_sent_ = n then 0
      else (dupMembers n k buf_).num_dups_sent_) = k % n := by
    cases k with
    | zero => simp [dupMembers]
    | succ k => simp [dupMembers, succ_mod_eq_ite]
  simp only [dupPull, hreset]
  by_cases hk : k % n = 0
  · simp [hk, dupMembers]
  · simp [hk, dupMembers]

/-- `Dup` asks for the first of every `num_dups` copies. -/
theorem pullsAs_dup (n d : ℕ) : (PullElement.dup n d : PullElement V).PullsAs where
  init := ⟨rfl, rfl⟩
  pushed x _ h := by cases h
  gives upstream s seen m hm h := by
    obtain rfl : m = dupMembers n (answersGiven seen).length (lastGot seen) :=
      congrArg₂ DupPull.mk hm.2 hm.1
    have hk : ¬ (answersGiven seen).length % n = 0 := by
      intro hk
      rw [PullElement.asks, if_pos hk] at h
      cases h
    refine ⟨_, (dupPull_pull (upstream d) n _ _ s).trans (if_neg hk), ?_, ?_⟩
    · simp [dupMembers, lastGot]
    · simp [dupMembers]
  asks upstream s seen m d' hm h := by
    obtain rfl : m = dupMembers n (answersGiven seen).length (lastGot seen) :=
      congrArg₂ DupPull.mk hm.2 hm.1
    rw [PullElement.asks] at h
    split_ifs at h with hk
    obtain rfl := Option.some.inj h
    refine ⟨dupMembers n ((answersGiven seen).length + 1) (upstream d s).1, ?_, ?_, ?_⟩
    · simp only [PullElement.answers, lastGot_got]
      exact (dupPull_pull (upstream d) n _ _ s).trans (if_pos hk)
    · simp [dupMembers, lastGot]
    · simp [dupMembers]

/-- `Dedup` answers with the last of every `num_dups` copies. -/
theorem pullsAs_dedup (n d : ℕ) : (PullElement.dedup n d : PullElement V).PullsAs := by
  refine pullsAs_of_asks (fun _ _ => rfl) (fun _ => rfl) (fun _ => (Nat.zero_mod n).symm) ?_
  intro S upstream s seen counts hm
  rcases hup : upstream d s with ⟨o, up⟩
  obtain ⟨hlast, hother, hframe⟩ := countsCopy_optionalLess n counts o
  have hcount : counter (optionalLess OrderedMap.less) o counts = (answersGot seen).count o % n :=
    hm o
  rw [hcount] at hlast hother
  have hdvd : n ∣ (answersGot seen).count o + 1 ↔ (answersGot seen).count o % n + 1 = n := by
    rw [Nat.dvd_iff_mod_eq_zero, succ_mod_eq_ite]
    split_ifs with h
    · simp [h]
    · simp [h]
  refine ⟨(dedupCount (optionalLess OrderedMap.less) n counts o).2, ?_, fun o' => ?_⟩
  · refine (dedupPull_pull hup n).trans ?_
    simp only [PullElement.answers, lastGot_got, answersGot_append, answersGot_got, answersGot_nil,
      List.count_append, List.count_singleton_self, hdvd]
    by_cases h : (answersGot seen).count o % n + 1 = n
    · rw [(hlast h).1, if_pos rfl, if_pos h]
      rfl
    · rw [(hother h).1, if_neg Bool.false_ne_true, if_neg h]
      rfl
  · have hgot : (answersGot (seen ++ [Seen.got d o] ++ [Seen.gave
        ((PullElement.dedup n d).answers (seen ++ [Seen.got d o]))])).count o' =
        (answersGot seen).count o' + [o].count o' := by
      simp
    rw [hgot]
    by_cases ho : o' = o
    · subst ho
      rw [List.count_singleton_self, succ_mod_eq_ite]
      split_ifs with h
      · exact (hlast h).2
      · exact (hother h).2
    · rw [hframe o' ho, hm o']
      simp [Ne.symm ho]

/-- `RoundRobin` asks its upstreams in turn. -/
theorem pullsAs_roundRobin (ds : List ℕ) :
    (PullElement.roundRobin ds : PullElement V).PullsAs where
  init := by
    by_cases hds : ds = []
    · exact (if_pos hds).symm
    · exact ((if_neg hds).trans (Nat.zero_mod _)).symm
  pushed x _ h := by cases h
  gives upstream s seen m hm h := by
    have hds : ds = [] := by
      by_contra hds
      have hlt : (answersGiven seen).length % ds.length < ds.length :=
        Nat.mod_lt _ (List.length_pos_iff.mpr hds)
      rw [PullElement.asks, List.getElem?_eq_getElem hlt] at h
      cases h
    subst hds
    exact ⟨m, rfl, hm⟩
  asks upstream s seen m d hm h := by
    have hds : ds ≠ [] := by
      rintro rfl
      cases h
    have hpos : 0 < ds.length := List.length_pos_iff.mpr hds
    obtain rfl : m = (answersGiven seen).length % ds.length := by
      have hm : m = if ds = [] then 0 else (answersGiven seen).length % ds.length := hm
      rwa [if_neg hds] at hm
    rw [PullElement.asks] at h
    refine ⟨((answersGiven seen).length % ds.length + 1) % ds.length, ?_, ?_⟩
    · simp [PullElement.op, roundRobinPull, hpos, h, PullElement.answers, hds]
    · change _ = if ds = [] then 0 else (answersGiven (seen ++ _ ++ _)).length % ds.length
      simp [hds]

/-- `Queue` answers with the first value that it has not answered with. -/
theorem pullsAs_queue : (PullElement.queue : PullElement V).PullsAs := by
  refine pullsAs_of_gives (fun _ => rfl) rfl ?_ ?_
  · intro seen m m' x hm h
    change List V at m m'
    obtain rfl := Option.some.inj h
    have hm : valuesPushed seen = (answersGiven seen).reduceOption ++ m := hm
    simp [PullElement.Knows, queuePush, hm]
  · intro S upstream s seen m hm
    change List V at m
    have hm : valuesPushed seen = (answersGiven seen).reduceOption ++ m := hm
    cases m with
    | nil =>
        refine ⟨[], ?_, ?_⟩
        · simp [PullElement.op, queuePuller, queuePull, PullElement.answers, hm]
        · simp [PullElement.Knows, PullElement.answers, hm, List.reduceOption_append]
    | cons x xs_ =>
        refine ⟨xs_, ?_, ?_⟩
        · simp [PullElement.op, queuePuller, queuePull, PullElement.answers, hm]
        · simp [PullElement.Knows, PullElement.answers, hm, List.reduceOption_append]

/-- **What each element asks for and answers**, in view of what it has seen. -/
theorem PullElement.pullsAs (e : PullElement V) : e.PullsAs := by
  cases e with
  | id d =>
      refine pullsAs_of_forwards (fun _ _ => rfl) (fun _ => rfl) (fun _ _ => trivial) ?_
      intro S upstream s seen m
      simp [op, PullOperator.from, idPull, answers]
  | map f_ d =>
      refine pullsAs_of_forwards (fun _ _ => rfl) (fun _ => rfl) (fun _ _ => trivial) ?_
      intro S upstream s seen m
      rcases hup : upstream d s with ⟨x, up⟩
      cases x with
      | none => simp [op, PullOperator.from, mapPull, answers, hup]
      | some x => simp [op, PullOperator.from, mapPull, answers, hup]
  | filter predicate_ d =>
      refine pullsAs_of_forwards (fun _ _ => rfl) (fun _ => rfl) (fun _ _ => trivial) ?_
      intro S upstream s seen m
      rcases hup : upstream d s with ⟨x, up⟩
      cases x with
      | none => simp [op, PullOperator.from, filterPull, answers, hup]
      | some x =>
          by_cases hp : predicate_ x = true
          · simp [op, PullOperator.from, filterPull, answers, hup, hp, Option.filter]
          · simp [op, PullOperator.from, filterPull, answers, hup, hp, Option.filter]
  | dup n d => exact pullsAs_dup n d
  | dedup n d => exact pullsAs_dedup n d
  | counter d =>
      refine pullsAs_of_asks (fun _ _ => rfl) (fun _ => rfl) countedTo_zero.symm ?_
      intro S upstream s seen m hm
      have hm : m = countedTo (answersGiven seen).length := hm
      refine ⟨countedTo ((answersGiven seen).length + 1), ?_, ?_⟩
      · simp [op, PullOperator.from, counterPull, answers, hm, increment_countedTo]
      · change _ = countedTo (answersGiven (seen ++ _ ++ _)).length
        simp
  | roundRobin ds => exact pullsAs_roundRobin ds
  | drop =>
      exact pullsAs_of_gives (fun _ => rfl) trivial (fun _ _ _ => trivial)
        fun _ _ _ m _ => ⟨m, rfl, trivial⟩
  | lambda f_ =>
      refine pullsAs_of_gives (fun _ => rfl) rfl ?_ ?_
      · intro seen m m' x _ h
        cases h
      · intro S upstream s seen m hm
        obtain rfl : m = (answersGiven seen).length := hm
        refine ⟨(answersGiven seen).length + 1, rfl, ?_⟩
        change _ = (answersGiven (seen ++ [_])).length
        simp
  | register x =>
      refine pullsAs_of_gives (fun _ => rfl) rfl ?_ ?_
      · intro seen m m' y _ h
        cases h
      · intro S upstream s seen m hm
        have hm : m = x := hm
        exact ⟨m, by rw [hm]; rfl, hm⟩
  | queue => exact pullsAs_queue

end Elements

/-! ### Graphs -/

/-- The elements of a graph, in the order of their construction. -/
structure PullGraph (V : Type) where
  elements : List (PullElement V)
  /-- The upstreams of an element have been constructed before it. -/
  backward : ∀ (i : ℕ) (e : PullElement V), elements[i]? = some e → ∀ d ∈ e.upstreams, d < i

/-- What happens in a graph. -/
inductive PullEvent (V : Type)
  /-- A value is pushed into an element. -/
  | pushed (receiver : ℕ) (x : V)
  /-- A pull of an element returns. -/
  | pulled (puller : Sender) (upstream_ : ℕ) (answer : Option V)
  deriving DecidableEq, Repr

/-- What happens from outside. -/
inductive PullAction (V : Type)
  | push (i : ℕ) (x : V)
  | pull (i : ℕ)
  deriving DecidableEq, Repr

section Graph

variable {V : Type} [LinearOrder V]

/-- The element with a number; there is nothing beyond the last one. -/
def PullGraph.element (g : PullGraph V) (i : ℕ) : PullElement V :=
  (g.elements[i]?).getD .drop

/-- The members of all elements, and what has happened. -/
structure PullState (g : PullGraph V) where
  members : (i : ℕ) → (g.element i).op.State
  log : List (PullEvent V)

/-- `pull()` of element `i`, called by `puller`. -/
def pull (g : PullGraph V) (puller : Sender) (i : ℕ) (s : PullState g) :
    Option V × PullState g :=
  let upstream : ℕ → PullState g → Option V × PullState g := fun d s =>
    if _h : d < i then pull g (.element i) d s else (none, s)
  let r := (g.element i).op.pull upstream (s.members i, s)
  (r.1, {
    members := Function.update r.2.2.members i r.2.1
    log := r.2.2.log ++ [.pulled puller i r.1] })
termination_by i

/-- The machine of a graph; elements are pulled, and pushed into, from outside. -/
def pullGraph (g : PullGraph V) : Machine (PullState g) (PullAction V) where
  init := ⟨fun i => (g.element i).op.init, []⟩
  step s
    | .push i x => ((g.element i).pushed (s.members i) x).map fun m =>
        { members := Function.update s.members i m
          log := s.log ++ [.pushed i x] }
    | .pull i => some (pull g .outside i s).2

end Graph

section Log

variable {V : Type}

/-- What element `k` sees of an event. -/
def PullEvent.seenBy (k : ℕ) : PullEvent V → List (Seen V)
  | .pushed i x => if i = k then [.pushed x] else []
  | .pulled puller d x =>
      if puller = .element k then [.got d x] else if d = k then [.gave x] else []

/-- What element `k` has seen. -/
def seenBy (k : ℕ) (log : List (PullEvent V)) : List (Seen V) :=
  log.flatMap (PullEvent.seenBy k)

/-- What an element has seen, over two parts of the log. -/
theorem seenBy_append (k : ℕ) (log log' : List (PullEvent V)) :
    seenBy k (log ++ log') = seenBy k log ++ seenBy k log' :=
  List.flatMap_append

/-- What an element sees of one pull. -/
theorem seenBy_singleton (k : ℕ) (e : PullEvent V) : seenBy k [e] = e.seenBy k :=
  List.flatMap_singleton _ _

/-- The pulls are made by the elements up to `i`, each of elements before it. -/
def PullsBelow (i : ℕ) (log : List (PullEvent V)) : Prop :=
  ∀ e ∈ log, ∃ k ≤ i, ∃ d < k, ∃ x, e = .pulled (.element k) d x

/-- Pulls below an element are below the later ones. -/
theorem PullsBelow.mono {i j : ℕ} {log : List (PullEvent V)} (h : PullsBelow i log)
    (hij : i ≤ j) : PullsBelow j log := by
  intro e he
  obtain ⟨k, hk, hrest⟩ := h e he
  exact ⟨k, by omega, hrest⟩

/-- An element sees nothing of pulls below an earlier one. -/
theorem PullsBelow.seenBy_eq_nil {i k : ℕ} {log : List (PullEvent V)} (h : PullsBelow i log)
    (hk : i < k) : seenBy k log = [] := by
  refine List.flatMap_eq_nil_iff.mpr fun e he => ?_
  obtain ⟨m, hm, d, hd, x, rfl⟩ := h e he
  rw [PullEvent.seenBy, if_neg (Sender.element_ne_of_lt (show m < k by omega)).symm,
    if_neg (by omega)]

end Log

/-! ### One pull -/

section Spec

variable {V : Type} [LinearOrder V] {g : PullGraph V}

/-- Element `k` has seen what it is to see, and its members are those of what it has seen. -/
structure PullState.Carries (s : PullState g) (k : ℕ) : Prop where
  follows : (g.element k).Follows (seenBy k s.log)
  knows : (g.element k).Knows (seenBy k s.log) (s.members k)

/-- An event that does not concern an element. -/
theorem PullState.Carries.congr {s s' : PullState g} {k : ℕ} (h : s.Carries k)
    (hmembers : s'.members k = s.members k) (hseen : seenBy k s'.log = seenBy k s.log) :
    s'.Carries k := by
  refine ⟨?_, ?_⟩
  · rw [hseen]
    exact h.follows
  · rw [hseen, hmembers]
    exact h.knows

/-- What a pull of element `i` and all that it causes does. -/
structure PullSpec (puller : Sender) (i : ℕ) (s : PullState g) (r : Option V × PullState g) :
    Prop where
  log : ∃ earlier, r.2.log = s.log ++ earlier ++ [.pulled puller i r.1] ∧ PullsBelow i earlier
  frame : ∀ k, i < k → r.2.members k = s.members k
  carries : ∀ k ≤ i, r.2.Carries k

/-- What an element behind `i` sees of the pull: the answer, if it is the puller. -/
theorem PullSpec.seenBy_eq {puller : Sender} {i k : ℕ} {s : PullState g}
    {r : Option V × PullState g} (h : PullSpec puller i s r) (hk : i < k) :
    seenBy k r.2.log =
      seenBy k s.log ++ if puller = .element k then [.got i r.1] else [] := by
  obtain ⟨earlier, hlog, hbelow⟩ := h.log
  rw [hlog, seenBy_append, seenBy_append, hbelow.seenBy_eq_nil hk, seenBy_singleton,
    PullEvent.seenBy, List.append_nil, if_neg (show ¬ i = k by omega)]

/-- The pull keeps what an element carries, unless that is its puller, who sees the answer. -/
theorem PullSpec.carries_of_ne {puller : Sender} {i k : ℕ} {s : PullState g}
    {r : Option V × PullState g} (h : PullSpec puller i s r) (hk : puller ≠ .element k)
    (hs : s.Carries k) : r.2.Carries k := by
  rcases Nat.lt_or_ge i k with hik | hik
  · refine hs.congr (h.frame k hik) ?_
    rw [h.seenBy_eq hik, if_neg hk, List.append_nil]
  · exact h.carries k hik

omit [LinearOrder V] in
/-- An element asks its upstreams only. -/
theorem PullElement.asks_mem_upstreams {e : PullElement V} {seen : List (Seen V)} {d : ℕ}
    (h : e.asks seen = some d) : d ∈ e.upstreams := by
  cases e with
  | id d' | map _ d' | filter _ d' | dedup _ d' | counter d' =>
      obtain rfl := Option.some.inj h
      exact List.mem_singleton_self _
  | dup n d' =>
      rw [asks] at h
      split_ifs at h
      obtain rfl := Option.some.inj h
      exact List.mem_singleton_self _
  | roundRobin ds => exact List.mem_of_getElem? h
  | drop => cases h
  | lambda _ => cases h
  | register _ => cases h
  | queue => cases h

omit [LinearOrder V] in
/-- So it asks elements constructed before it. -/
theorem PullGraph.asks_lt (g : PullGraph V) {i d : ℕ} {seen : List (Seen V)}
    (h : (g.element i).asks seen = some d) : d < i := by
  rw [PullGraph.element] at h
  cases hget : g.elements[i]? with
  | none =>
      rw [hget] at h
      cases h
  | some e =>
      rw [hget] at h
      exact g.backward i e hget d (PullElement.asks_mem_upstreams h)

/-- Element `i` has answered a pull, with its members afterwards. -/
def PullState.answered (s : PullState g) (puller : Sender) (i : ℕ) (x : Option V)
    (m : (g.element i).op.State) : PullState g where
  members := Function.update s.members i m
  log := s.log ++ [.pulled puller i x]

/-- After all that a pull causes, element `i` answers. -/
theorem PullState.answered_spec {s s₁ : PullState g} {puller : Sender} {i : ℕ} {x : Option V}
    {m : (g.element i).op.State} (hpuller : ∀ k ≤ i, puller ≠ .element k)
    (hlog : ∃ earlier, s₁.log = s.log ++ earlier ∧ PullsBelow i earlier)
    (hframe : ∀ k, i < k → s₁.members k = s.members k) (hs₁ : ∀ k < i, s₁.Carries k)
    (hfollows : (g.element i).Follows (seenBy i s₁.log ++ [.gave x]))
    (hknows : (g.element i).Knows (seenBy i s₁.log ++ [.gave x]) m) :
    PullSpec puller i s (x, s₁.answered puller i x m) := by
  obtain ⟨earlier, hearlier, hbelow⟩ := hlog
  refine ⟨⟨earlier, by rw [PullState.answered, hearlier], hbelow⟩, fun k hk => ?_,
    fun k hk => ?_⟩
  · exact (Function.update_of_ne hk.ne' _ _).trans (hframe k hk)
  · have hseen : seenBy k (s₁.answered puller i x m).log =
        seenBy k s₁.log ++ if i = k then [.gave x] else [] := by
      rw [PullState.answered, seenBy_append, seenBy_singleton, PullEvent.seenBy,
        if_neg (hpuller k hk)]
    rcases Nat.lt_or_eq_of_le hk with hk | rfl
    · rw [if_neg hk.ne', List.append_nil] at hseen
      exact (hs₁ k hk).congr (Function.update_of_ne hk.ne _ _) hseen
    · rw [if_pos rfl] at hseen
      refine ⟨?_, ?_⟩
      · rw [hseen]
        exact hfollows
      · rw [hseen]
        change (g.element k).Knows _ (Function.update s₁.members k m k)
        rw [Function.update_self]
        exact hknows

/-- **One pull**: it is the last entry of the log, what is added before it is what the elements
up to `i` pull from elements before them, and if all of these have done what they are to do
before, they have afterwards. -/
theorem pull_spec (i : ℕ) (puller : Sender) (hpuller : ∀ k ≤ i, puller ≠ .element k)
    {s : PullState g} (hs : ∀ k ≤ i, s.Carries k) :
    PullSpec puller i s (pull g puller i s) := by
  induction i using Nat.strong_induction_on generalizing puller s with
  | _ i ih =>
      rw [pull]
      set upstream : ℕ → PullState g → Option V × PullState g := fun d s =>
        if _h : d < i then pull g (.element i) d s else (none, s)
      obtain ⟨hfollows, hknows⟩ := hs i le_rfl
      cases hasks : (g.element i).asks (seenBy i s.log) with
      | none =>
          obtain ⟨m', hpull, hm'⟩ := (g.element i).pullsAs.gives upstream s hknows hasks
          rw [hpull]
          exact PullState.answered_spec hpuller ⟨[], by simp, by simp [PullsBelow]⟩
            (fun _ _ => rfl) (fun k hk => hs k hk.le) (hfollows.gave hasks) hm'
      | some d =>
          have hd : d < i := g.asks_lt hasks
          have hup : upstream d s = pull g (.element i) d s := dif_pos hd
          have hspec : PullSpec (.element i) d s (upstream d s) := by
            rw [hup]
            exact ih d hd (.element i) (fun k hk => Sender.element_ne_of_lt (by omega))
              fun k hk => hs k (by omega)
          have hseen : seenBy i (upstream d s).2.log =
              seenBy i s.log ++ [.got d (upstream d s).1] := by
            rw [hspec.seenBy_eq hd, if_pos rfl]
          obtain ⟨m', hpull, hm'⟩ := (g.element i).pullsAs.asks upstream s hknows hasks
          rw [hpull]
          refine PullState.answered_spec hpuller ?_ (fun k hk => hspec.frame k (by omega)) ?_ ?_ ?_
          · obtain ⟨earlier, hlog, hbelow⟩ := hspec.log
            refine ⟨earlier ++ [.pulled (.element i) d (upstream d s).1], ?_, ?_⟩
            · rw [hlog, List.append_assoc]
            · intro e he
              rcases List.mem_append.mp he with he | he
              · exact hbelow.mono hd.le e he
              · exact ⟨i, le_rfl, d, hd, _, List.mem_singleton.mp he⟩
          · intro k hk
            exact hspec.carries_of_ne (Sender.element_ne_of_lt hk) (hs k hk.le)
          · rw [hseen]
            exact hfollows.asked _ hasks
          · rw [hseen]
            exact hm'

/-- A value is pushed into element `i`. -/
theorem PullState.Carries.pushed {s : PullState g} {i : ℕ} {m : (g.element i).op.State} (x : V)
    (hm : (g.element i).pushed (s.members i) x = some m) {k : ℕ} (h : s.Carries k) :
    PullState.Carries ⟨Function.update s.members i m, s.log ++ [.pushed i x]⟩ k := by
  by_cases hk : i = k
  · subst hk
    have hseen : seenBy i (s.log ++ [.pushed i x]) = seenBy i s.log ++ [.pushed x] := by
      rw [seenBy_append, seenBy_singleton, PullEvent.seenBy, if_pos rfl]
    refine ⟨?_, ?_⟩
    · simp only [hseen]
      exact h.follows.pushed x
    · simp only [hseen, Function.update_self]
      exact (g.element i).pullsAs.pushed x h.knows hm
  · refine h.congr (Function.update_of_ne (Ne.symm hk) _ _) ?_
    simp only [seenBy_append, seenBy_singleton, PullEvent.seenBy, if_neg hk, List.append_nil]

/-- What every element has done is kept by each step. -/
theorem carries_step {s s' : PullState g} {a : PullAction V} (hs : ∀ k, s.Carries k)
    (hstep : (pullGraph g).step s a = some s') (k : ℕ) : s'.Carries k := by
  cases a with
  | push i x =>
      obtain ⟨m, hm, rfl⟩ := Option.map_eq_some_iff.mp hstep
      exact (hs k).pushed x hm
  | pull i =>
      obtain rfl := Option.some.inj hstep
      have hspec := pull_spec i .outside (fun _ _ => by simp) fun k _ => hs k
      exact hspec.carries_of_ne (by simp) (hs k)

/-- **Every graph of pull elements follows.** In every run, whichever elements are pulled and
pushed into from outside, and whoever shares an upstream: each element has asked its upstreams
and answered exactly as it is to in view of what it had seen, and its members are those of
what it has seen. -/
theorem pullGraph_follows {s : PullState g} (h : (pullGraph g).Reachable s) (i : ℕ) :
    (g.element i).Follows (seenBy i s.log) ∧
      (g.element i).Knows (seenBy i s.log) (s.members i) := by
  have hcarries : ∀ k, s.Carries k := by
    refine h.invariant (I := fun s => ∀ k, s.Carries k) ?_ ?_
    · exact fun k => ⟨.nil, (g.element k).pullsAs.init⟩
    · intro s a s' _ hs hstep
      exact carries_step hs hstep
  exact ⟨(hcarries i).follows, (hcarries i).knows⟩

end Spec

/-- The answers of a function, `5`, `6` and then none, are shared by a `RoundRobin`, which takes
turns with a register, and by a `Dup`; there is also a queue. -/
def sharedLambda : PullGraph ℕ where
  elements := [.lambda fun n => if n < 2 then some (n + 5) else none, .register 9,
    .roundRobin [0, 1], .dup 2 0, .queue]
  backward := by
    intro i e he d hd
    have hi : i < 5 := (List.getElem?_eq_some_iff.mp he).1
    interval_cases i <;> obtain rfl := Option.some.inj he <;>
      simp [PullElement.upstreams] at hd <;> omega

/-- Each answer of the function has gone to one of them: the first one to the `RoundRobin`, and
the second one to the `Dup`. -/
theorem pullGraph_follows_shared_lambda : ∃ s,
    (pullGraph sharedLambda).run (pullGraph sharedLambda).init
        [.pull 2, .push 4 8, .pull 3, .pull 3, .pull 2, .pull 4, .pull 2, .pull 4] = some s ∧
      seenBy 2 s.log = [.got 0 (some 5), .gave (some 5), .got 1 (some 9), .gave (some 9),
        .got 0 none, .gave none] ∧
      seenBy 3 s.log = [.got 0 (some 6), .gave (some 6), .gave (some 6)] ∧
      seenBy 4 s.log = [.pushed 8, .gave (some 8), .gave none] ∧
      (PullElement.roundRobin [0, 1]).Follows (seenBy 2 s.log) ∧ s.members 2 = (1 : ℕ) := by
  have hrun : ((pullGraph sharedLambda).run (pullGraph sharedLambda).init
      [.pull 2, .push 4 8, .pull 3, .pull 3, .pull 2, .pull 4, .pull 2, .pull 4]).map
      (fun s => (seenBy 2 s.log, seenBy 3 s.log, seenBy 4 s.log)) =
      some ([.got 0 (some 5), .gave (some 5), .got 1 (some 9), .gave (some 9), .got 0 none,
        .gave none], [.got 0 (some 6), .gave (some 6), .gave (some 6)],
        [.pushed 8, .gave (some 8), .gave none]) := by
    decide +kernel
  obtain ⟨s, hs, hlog⟩ := Option.map_eq_some_iff.mp hrun
  obtain ⟨htwo, hrest⟩ := Prod.mk.inj hlog
  obtain ⟨hthree, hfour⟩ := Prod.mk.inj hrest
  obtain ⟨hfollows, hknows⟩ := pullGraph_follows (Machine.reachable_of_run hs) 2
  rw [htwo] at hknows
  exact ⟨s, hs, htwo, hthree, hfour, hfollows, hknows⟩

end LatticeFlow
