import Mathlib.Tactic.IntervalCases
import LatticeFlow.Dedup
import LatticeFlow.Lib.Machine
import LatticeFlow.Lib.MachineInt
import LatticeFlow.RoundRobin

/-!
# Graphs of Push Elements

The `Push` versions of the elements of `pushpull/`, wired up without cycles: `Id`, `Map`,
`Filter`, `Dup`, `Dedup`, `Counter`, `If`, `Tee`, `RoundRobin`, `Drop`, `Lambda`, `Register` and
`Queue`. An element gets the pointers to its downstreams when it is constructed, so these lead
to elements that have been constructed before it: nothing goes round. Several elements may have
the same downstream.

The elements of a graph are numbered in the order of their construction, and a pointer is a
number. The values that pass a graph are all of one type here. What the function of a
`Lambda` does is left open, as long as it does not push into the graph; its calls are recorded.
The counts of a `Dedup` of no copies grow for ever and would overflow, which is left out, as is
a `RoundRobin` with more downstreams than an `int` can count.

A push into an element returns when everything that it causes downstream has happened. The
log of a graph lists all pushes, each with its sender, in the order in which they were made.

## Main results

* `Element.remembers`: each element does what it does in view of what has been pushed into it,
  and nothing else.
* `push_spec`: one push from outside, or from an element, and all that it causes.
* `pushGraph_carries`: in every run of every graph, each element has pushed downstream exactly
  what its answers to its input are, in order, and its members are those of its input.
-/

namespace LatticeFlow

/-! ### Elements -/

section Elements

variable {V : Type}

/-- A push operator with one downstream, at a pointer. -/
def PushOperator.into (P : PushOperator V V) (downstream_ : ℕ) : PushOperator V (ℕ × V) where
  State := P.State
  init := P.init
  push downstream s x := P.push (fun s y => downstream s (downstream_, y)) s x

/-- `Counter<Push>`; the state is `count_`, an `int`. -/
def counterPush (V : Type) : PushOperator V V where
  State := ℤ
  init := 0
  push downstream s x := (increment s.1, downstream s.2 x)

/-- `Drop<Push>`. -/
def dropPush (V : Type) : PushOperator V (ℕ × V) where
  State := Unit
  init := ()
  push _ s _ := s

/-- `Lambda<Push>`; the state is the list of the calls of `f_`. -/
def lambdaPush (V : Type) : PushOperator V (ℕ × V) where
  State := List V
  init := []
  push _ s x := (s.1 ++ [x], s.2)

/-- `Register<Push>`; nothing is known of `x_` before the first push. -/
def registerPush (V : Type) : PushOperator V (ℕ × V) where
  State := Option V
  init := none
  push _ s x := (some x, s.2)

/-- `Queue`, as a `Pusher`. -/
def queuePusher (V : Type) : PushOperator V (ℕ × V) where
  State := List V
  init := []
  push _ s x := (queuePush s.1 x, s.2)

/-- `If<Push>`. -/
def ifPush (predicate_ : V → Bool) (true_branch_ false_branch_ : ℕ) :
    PushOperator V (ℕ × V) where
  State := Unit
  init := ()
  push downstream s x :=
    if predicate_ x then (s.1, downstream s.2 (true_branch_, x))
    else (s.1, downstream s.2 (false_branch_, x))

/-- `Tee<Push>`. -/
def teePush (downstreams_ : List ℕ) : PushOperator V (ℕ × V) where
  State := Unit
  init := ()
  push downstream s x := (s.1, downstreams_.foldl (fun s d => downstream s (d, x)) s.2)

/-- `RoundRobin<Push>`; the state is `index_`. -/
def roundRobinPush (downstreams_ : List ℕ) : PushOperator V (ℕ × V) where
  State := ℕ
  init := 0
  push downstream s x :=
    if 0 < downstreams_.length then
      match downstreams_[s.1]? with
      | some d => ((s.1 + 1) % downstreams_.length, downstream s.2 (d, x))
      -- The index is beyond the end of the vector.
      | none => s
    else s

/-- An element, with the pointers to its downstreams. -/
inductive Element (V : Type)
  | id (downstream_ : ℕ)
  | map (f_ : V → V) (downstream_ : ℕ)
  | filter (predicate_ : V → Bool) (downstream_ : ℕ)
  | dup (num_dups_ : ℕ) (downstream_ : ℕ)
  | dedup (num_dups_ : ℕ) (downstream_ : ℕ)
  | counter (downstream_ : ℕ)
  | ifElse (predicate_ : V → Bool) (true_branch_ false_branch_ : ℕ)
  | tee (downstreams_ : List ℕ)
  | roundRobin (downstreams_ : List ℕ)
  | drop
  | lambda
  | register
  | queue

namespace Element

/-- The pointers of an element. -/
def downstreams : Element V → List ℕ
  | id d | map _ d | filter _ d | dup _ d | dedup _ d | counter d => [d]
  | ifElse _ t f => [t, f]
  | tee ds | roundRobin ds => ds
  | drop | lambda | register | queue => []

variable [LinearOrder V]

/-- The members and the `push` of an element. -/
def op : Element V → PushOperator V (ℕ × V)
  | id d => (idPush V).into d
  | map f_ d => (mapPush f_).into d
  | filter predicate_ d => (filterPush predicate_).into d
  | dup num_dups_ d => (dupPush V num_dups_).into d
  | dedup num_dups_ d => (dedupPush OrderedMap.less num_dups_).into d
  | counter d => (counterPush V).into d
  | ifElse predicate_ t f => ifPush predicate_ t f
  | tee ds => teePush ds
  | roundRobin ds => roundRobinPush ds
  | drop => dropPush V
  | lambda => lambdaPush V
  | register => registerPush V
  | queue => queuePusher V

/-- What an element pushes downstream when `x` is pushed into it after `before`. -/
def answer : Element V → List V → V → List (ℕ × V)
  | id d, _, x => [(d, x)]
  | map f_ d, _, x => [(d, f_ x)]
  | filter predicate_ d, _, x => if predicate_ x then [(d, x)] else []
  | dup num_dups_ d, _, x => List.replicate num_dups_ (d, x)
  | dedup num_dups_ d, before, x => (everyNth num_dups_ before x).map fun y => (d, y)
  | counter d, _, x => [(d, x)]
  | ifElse predicate_ t f, _, x => [(if predicate_ x then t else f, x)]
  | tee ds, _, x => ds.map fun d => (d, x)
  | roundRobin ds, before, x => (ds[before.length % ds.length]?).toList.map fun d => (d, x)
  | drop, _, _ => []
  | lambda, _, _ => []
  | register, _, _ => []
  | queue, _, _ => []

/-- The members of an element when `before` has been pushed into it. -/
def Knows : (e : Element V) → List V → e.op.State → Prop
  | dedup num_dups_ _, before, counts_ => ResetInv num_dups_ before counts_
  | counter _, before, count_ => count_ = countedTo before.length
  | roundRobin ds, before, index_ =>
      index_ = (if ds = [] then 0 else before.length % ds.length : ℕ)
  | lambda, before, calls => calls = before
  | register, before, x_ => x_ = before.getLast?
  | queue, before, xs_ => xs_ = before
  | _, _, _ => True

end Element

/-- A pointer in front of what an operator remembers. -/
theorem PushOperator.Remembers.into {P : PushOperator V V} {f : List V → V → List V}
    {R : List V → P.State → Prop} (h : P.Remembers f R) (d : ℕ) :
    (P.into d).Remembers (fun before x => (f before x).map fun y => (d, y)) R where
  init := h.init
  step downstream before m s x hm := by
    obtain ⟨m', hpush, hm'⟩ := h.step (fun s y => downstream s (d, y)) s x hm
    refine ⟨m', ?_, hm'⟩
    rw [List.foldl_map]
    exact hpush

/-- An operator whose answer does not depend on the past. -/
theorem remembers_of_memoryless {α β : Type} {P : PushOperator α β} {f : α → List β}
    (h : ∀ {S : Type} (downstream : S → β → S) (m : P.State) (s : S) (x : α),
      (P.push downstream (m, s) x).2 = (f x).foldl downstream s) :
    P.Remembers (fun _ x => f x) fun _ _ => True where
  init := trivial
  step downstream _ m s x _ := by
    refine ⟨(P.push downstream (m, s) x).1, ?_, trivial⟩
    rw [← h downstream m s x]

/-- `Counter<Push>` hands on everything, and counts as an `int` does. -/
theorem remembers_counterPush (V : Type) :
    (counterPush V).Remembers (fun _ x => [x])
      fun before count_ => count_ = countedTo before.length where
  init := countedTo_zero.symm
  step downstream before m s x hm := by
    refine ⟨countedTo (before.length + 1), ?_, ?_⟩
    · simp only [counterPush, hm, increment_countedTo, List.foldl_cons, List.foldl_nil]
    · rw [List.length_append, List.length_singleton]

/-- `Dedup<Push>` of zero copies hands on nothing. -/
theorem remembers_dedupPush_zero [LinearOrder V] :
    (dedupPush (OrderedMap.less : V → V → Bool) 0).Remembers (everyNth 0) (ResetInv 0) where
  init := ⟨OrderedMap.sorted_nil, fun x => (Nat.zero_mod 0).symm⟩
  step downstream before counts_ s x h := by
    obtain ⟨-, hother, hframe⟩ := countsCopy_less 0 counts_ x
    obtain ⟨hstays, hcount⟩ := hother (Nat.succ_ne_zero _)
    refine ⟨(dedupCount OrderedMap.less 0 counts_ x).2, ?_,
      sorted_dedupCount h.sorted 0 x, fun y => ?_⟩
    · have hnone : everyNth 0 before x = [] := by simp [everyNth]
      rw [hnone]
      rcases hd : dedupCount OrderedMap.less 0 counts_ x with ⟨b, counts'⟩
      rw [hd] at hstays
      obtain rfl : b = false := hstays
      simp only [dedupPush, hd]
      rfl
    · rw [Nat.mod_zero, List.count_append]
      by_cases hy : y = x
      · rw [hy, hcount, h.counted, Nat.mod_zero, List.count_singleton_self]
      · rw [hframe y hy, h.counted, Nat.mod_zero]
        simp [Ne.symm hy]

/-- The index goes round. -/
theorem remembers_roundRobinPush (ds : List ℕ) :
    (roundRobinPush (V := V) ds).Remembers
      (fun before x => (ds[before.length % ds.length]?).toList.map fun d => (d, x))
      fun before index_ => index_ = if ds = [] then 0 else before.length % ds.length where
  init := by
    by_cases hds : ds = []
    · rw [if_pos hds]
      rfl
    · rw [if_neg hds]
      exact (Nat.zero_mod _).symm
  step downstream before m s x hm := by
    by_cases hds : ds = []
    · subst hds
      exact ⟨m, by simp [roundRobinPush], by simpa using hm⟩
    · have hpos : 0 < ds.length := List.length_pos_iff.mpr hds
      have hlt : before.length % ds.length < ds.length := Nat.mod_lt _ hpos
      have hget := List.getElem?_eq_getElem hlt
      rw [if_neg hds] at hm
      subst hm
      refine ⟨(before.length % ds.length + 1) % ds.length, ?_, ?_⟩
      · simp only [roundRobinPush, if_pos hpos, hget]
        rfl
      · rw [if_neg hds, List.length_append, List.length_singleton, Nat.mod_add_mod]

/-- **Each element answers from what has been pushed into it.** -/
theorem Element.remembers [LinearOrder V] (e : Element V) : e.op.Remembers e.answer e.Knows := by
  cases e with
  | id d =>
      exact (remembers_of_memoryless (f := fun x => [x]) fun _ _ _ _ => rfl).into d
  | map f_ d =>
      exact (remembers_of_memoryless (f := fun x => [f_ x]) fun _ _ _ _ => rfl).into d
  | filter predicate_ d =>
      have hfilter : (filterPush predicate_).Remembers
          (fun _ x => if predicate_ x then [x] else []) fun _ _ => True := by
        refine remembers_of_memoryless (f := fun x => if predicate_ x then [x] else [])
          fun downstream m s x => ?_
        by_cases hp : predicate_ x = true
        · simp [filterPush, hp]
        · simp [filterPush, hp]
      have hinto := hfilter.into d
      simp only [apply_ite (List.map _), List.map_singleton, List.map_nil] at hinto
      exact hinto
  | dup num_dups_ d =>
      have hdup : (dupPush V num_dups_).Remembers (fun _ x => List.replicate num_dups_ x)
          fun _ _ => True :=
        remembers_of_memoryless fun downstream m s x => (foldl_replicate downstream _ x s).symm
      have hinto := hdup.into d
      simp only [List.map_replicate] at hinto
      exact hinto
  | dedup num_dups_ d =>
      rcases Nat.eq_zero_or_pos num_dups_ with rfl | hpos
      · exact remembers_dedupPush_zero.into d
      · exact (remembers_dedupPush hpos).into d
  | counter d => exact (remembers_counterPush V).into d
  | ifElse predicate_ t f =>
      refine remembers_of_memoryless (f := fun x => [(if predicate_ x then t else f, x)])
        fun downstream m s x => ?_
      by_cases hp : predicate_ x = true
      · simp [Element.op, ifPush, hp]
      · simp [Element.op, ifPush, hp]
  | tee ds =>
      refine remembers_of_memoryless (f := fun x => ds.map fun d => (d, x))
        fun downstream m s x => ?_
      rw [List.foldl_map]
      rfl
  | roundRobin ds => exact remembers_roundRobinPush ds
  | drop => exact remembers_of_memoryless fun _ _ _ _ => rfl
  | lambda => exact ⟨rfl, fun _ _ _ _ x hm => ⟨_, rfl, congrArg (· ++ [x]) hm⟩⟩
  | register => exact ⟨rfl, fun _ _ _ _ x _ => ⟨some x, rfl, List.getLast?_concat.symm⟩⟩
  | queue => exact ⟨rfl, fun _ _ _ _ x hm => ⟨_, rfl, congrArg (· ++ [x]) hm⟩⟩

end Elements

/-! ### Graphs -/

/-- The elements of a graph, in the order of their construction. -/
structure PushGraph (V : Type) where
  elements : List (Element V)
  /-- The downstreams of an element have been constructed before it. -/
  backward : ∀ (i : ℕ) (e : Element V), elements[i]? = some e → ∀ d ∈ e.downstreams, d < i

/-- Who pushes. -/
inductive Sender
  | outside
  | element (i : ℕ)
  deriving DecidableEq, Repr

/-- An earlier element is another sender. -/
theorem Sender.element_ne_of_lt {i k : ℕ} (h : k < i) : Sender.element i ≠ .element k := by
  rw [ne_eq, Sender.element.injEq]
  omega

/-- A push, with its sender and its receiver. -/
structure Push (V : Type) where
  sender : Sender
  receiver : ℕ
  value : V
  deriving DecidableEq, Repr

section Graph

variable {V : Type} [LinearOrder V]

/-- The element with a number; there is nothing beyond the last one. -/
def PushGraph.element (g : PushGraph V) (i : ℕ) : Element V :=
  (g.elements[i]?).getD .drop

/-- The members of all elements, and the pushes so far. -/
structure GraphState (g : PushGraph V) where
  members : (i : ℕ) → (g.element i).op.State
  log : List (Push V)

/-- `push(x)` of element `i`, called by `sender`. -/
def push (g : PushGraph V) (sender : Sender) (i : ℕ) (x : V) (s : GraphState g) : GraphState g :=
  let downstream : GraphState g → ℕ × V → GraphState g := fun s p =>
    if _h : p.1 < i then push g (.element i) p.1 p.2 s else s
  let s := { s with log := s.log ++ [⟨sender, i, x⟩] }
  let r := (g.element i).op.push downstream (s.members i, s) x
  { r.2 with members := Function.update r.2.members i r.1 }
termination_by i

/-- The machine of a graph; elements are pushed into from outside. -/
def pushGraph (g : PushGraph V) : Machine (GraphState g) (ℕ × V) where
  init := ⟨fun i => (g.element i).op.init, []⟩
  step s a := some (push g .outside a.1 a.2 s)

end Graph

section Log

variable {V : Type}

/-- What has been pushed into element `i`. -/
def pushedInto (i : ℕ) (log : List (Push V)) : List V :=
  log.filterMap fun p => if p.receiver = i then some p.value else none

/-- What element `i` has pushed downstream, with the pointers. -/
def pushedBy (i : ℕ) (log : List (Push V)) : List (ℕ × V) :=
  log.filterMap fun p => if p.sender = .element i then some (p.receiver, p.value) else none

@[simp] theorem pushedInto_append (i : ℕ) (log log' : List (Push V)) :
    pushedInto i (log ++ log') = pushedInto i log ++ pushedInto i log' :=
  List.filterMap_append

@[simp] theorem pushedBy_append (i : ℕ) (log log' : List (Push V)) :
    pushedBy i (log ++ log') = pushedBy i log ++ pushedBy i log' :=
  List.filterMap_append

/-- The first push counts for its receiver. -/
theorem pushedInto_cons (i : ℕ) (p : Push V) (log : List (Push V)) :
    pushedInto i (p :: log) = (if p.receiver = i then [p.value] else []) ++ pushedInto i log := by
  by_cases hp : p.receiver = i <;> simp [pushedInto, hp]

/-- The first push counts for its sender. -/
theorem pushedBy_cons (i : ℕ) (p : Push V) (log : List (Push V)) :
    pushedBy i (p :: log) =
      (if p.sender = .element i then [(p.receiver, p.value)] else []) ++ pushedBy i log := by
  by_cases hp : p.sender = .element i <;> simp [pushedBy, hp]

/-- The pushes are made by the elements up to `i`, each into elements before it. -/
def Below (i : ℕ) (log : List (Push V)) : Prop :=
  ∀ p ∈ log, ∃ k ≤ i, p.sender = .element k ∧ p.receiver < k

/-- Pushes below an element are below the later ones. -/
theorem Below.mono {i j : ℕ} {log : List (Push V)} (h : Below i log) (hij : i ≤ j) :
    Below j log := by
  intro p hp
  obtain ⟨k, hk, hsender, hreceiver⟩ := h p hp
  exact ⟨k, by omega, hsender, hreceiver⟩

/-- They are not into that element or a later one. -/
theorem Below.pushedInto_eq_nil {i k : ℕ} {log : List (Push V)} (h : Below i log) (hk : i ≤ k) :
    pushedInto k log = [] := by
  refine List.filterMap_eq_nil_iff.mpr fun p hp => if_neg ?_
  obtain ⟨m, hm, -, hreceiver⟩ := h p hp
  omega

/-- Nor are they made by a later one. -/
theorem Below.pushedBy_eq_nil {i k : ℕ} {log : List (Push V)} (h : Below i log) (hk : i < k) :
    pushedBy k log = [] := by
  refine List.filterMap_eq_nil_iff.mpr fun p hp => if_neg ?_
  obtain ⟨m, hm, hsender, -⟩ := h p hp
  rw [hsender]
  exact (Sender.element_ne_of_lt (show m < k by omega)).symm

end Log

/-! ### One push -/

section Spec

variable {V : Type} [LinearOrder V] {g : PushGraph V}

/-- Element `k` has pushed its answers to what has been pushed into it, and its members are
those of what has been pushed into it. -/
structure GraphState.Carries (s : GraphState g) (k : ℕ) : Prop where
  knows : (g.element k).Knows (pushedInto k s.log) (s.members k)
  sent : pushedBy k s.log = fromHistory (g.element k).answer [] (pushedInto k s.log)

/-- A push that does not concern an element. -/
theorem GraphState.Carries.congr {s s' : GraphState g} {k : ℕ} (h : s.Carries k)
    (hmembers : s'.members k = s.members k) (hreceived : pushedInto k s'.log = pushedInto k s.log)
    (hsent : pushedBy k s'.log = pushedBy k s.log) : s'.Carries k := by
  refine ⟨?_, ?_⟩
  · rw [hreceived, hmembers]
    exact h.knows
  · rw [hreceived, hsent]
    exact h.sent

/-- What a push into element `i` and all that it causes does. -/
structure PushSpec (sender : Sender) (i : ℕ) (x : V) (s s' : GraphState g) : Prop where
  log : ∃ later, s'.log = s.log ++ ⟨sender, i, x⟩ :: later ∧ Below i later
  frame : ∀ k, i < k → s'.members k = s.members k
  carries : ∀ k ≤ i, s'.Carries k

/-- What the pushes `out` of element `i` and all that they cause do. -/
structure PushesSpec (i : ℕ) (out : List (ℕ × V)) (s s' : GraphState g) : Prop where
  log : ∃ later, s'.log = s.log ++ later ∧ pushedBy i later = out ∧ Below i later
  frame : ∀ k, i ≤ k → s'.members k = s.members k
  carries : ∀ k < i, s'.Carries k

/-- The push keeps what an element carries, unless that is its sender. -/
theorem PushSpec.carries_of_ne {sender : Sender} {i k : ℕ} {x : V} {s s' : GraphState g}
    (h : PushSpec sender i x s s') (hk : sender ≠ .element k) (hs : s.Carries k) :
    s'.Carries k := by
  rcases Nat.lt_or_ge i k with hik | hik
  · obtain ⟨later, hlog, hbelow⟩ := h.log
    refine hs.congr (h.frame k hik) ?_ ?_
    · rw [hlog, pushedInto_append, pushedInto_cons, if_neg (by simp only; omega),
        hbelow.pushedInto_eq_nil hik.le]
      simp
    · rw [hlog, pushedBy_append, pushedBy_cons, if_neg hk, hbelow.pushedBy_eq_nil hik]
      simp
  · exact h.carries k hik

/-- **The pushes of an element**, one after another. -/
theorem pushes_spec {i : ℕ} {downstream : GraphState g → ℕ × V → GraphState g}
    (hdown : ∀ d < i, ∀ x s, (∀ k ≤ d, s.Carries k) →
      PushSpec (.element i) d x s (downstream s (d, x)))
    (out : List (ℕ × V)) (hout : ∀ p ∈ out, p.1 < i) {s : GraphState g}
    (hs : ∀ k < i, s.Carries k) : PushesSpec i out s (out.foldl downstream s) := by
  induction out generalizing s with
  | nil => exact ⟨⟨[], by simp, rfl, by simp [Below]⟩, fun _ _ => rfl, hs⟩
  | cons p out ih =>
      obtain ⟨d, x⟩ := p
      obtain ⟨hd, hrest⟩ := List.forall_mem_cons.mp hout
      have hfirst := hdown d hd x s fun k hk => hs k (by omega)
      have hlater := ih hrest fun k hk =>
        hfirst.carries_of_ne (Sender.element_ne_of_lt hk) (hs k hk)
      obtain ⟨later₁, hlog₁, hbelow₁⟩ := hfirst.log
      obtain ⟨later₂, hlog₂, hsent₂, hbelow₂⟩ := hlater.log
      refine ⟨⟨⟨.element i, d, x⟩ :: later₁ ++ later₂, ?_, ?_, ?_⟩, fun k hk => ?_,
        hlater.carries⟩
      · rw [List.foldl_cons, hlog₂, hlog₁, List.append_assoc]
      · rw [List.cons_append, pushedBy_cons, pushedBy_append, hbelow₁.pushedBy_eq_nil hd, hsent₂]
        simp
      · intro p hp
        rcases List.mem_append.mp hp with hp | hp
        · rcases List.mem_cons.mp hp with rfl | hp
          · exact ⟨i, le_rfl, rfl, hd⟩
          · exact hbelow₁.mono hd.le p hp
        · exact hbelow₂ p hp
      · exact (hlater.frame k hk).trans (hfirst.frame k (by omega))

/-- The pointers in the answers of an element are its own. -/
theorem Element.fst_mem_downstreams (e : Element V) (before : List V) (x : V) :
    ∀ p ∈ e.answer before x, p.1 ∈ e.downstreams := by
  intro p hp
  cases e with
  | filter predicate_ d =>
      simp only [Element.answer] at hp
      split_ifs at hp
      · simp_all [Element.downstreams]
      · cases hp
  | ifElse predicate_ t f =>
      simp only [Element.answer, List.mem_singleton] at hp
      subst hp
      simp only [Element.downstreams]
      split_ifs <;> simp
  | roundRobin ds =>
      simp only [Element.answer, List.mem_map, Option.mem_toList] at hp
      obtain ⟨d, hd, rfl⟩ := hp
      exact List.mem_of_getElem? hd
  | tee ds =>
      obtain ⟨d, hd, rfl⟩ := List.mem_map.mp hp
      exact hd
  | dup num_dups_ d =>
      obtain rfl := List.eq_of_mem_replicate hp
      simp [Element.downstreams]
  | dedup num_dups_ d =>
      obtain ⟨y, -, rfl⟩ := List.mem_map.mp hp
      simp [Element.downstreams]
  | _ => simp_all [Element.answer, Element.downstreams]

/-- An element pushes into elements constructed before it. -/
theorem PushGraph.answer_lt (g : PushGraph V) (i : ℕ) (before : List V) (x : V) :
    ∀ p ∈ (g.element i).answer before x, p.1 < i := by
  intro p hp
  cases he : g.elements[i]? with
  | none => simp [PushGraph.element, he, Element.answer] at hp
  | some e =>
      simp only [PushGraph.element, he, Option.getD_some] at hp
      exact g.backward i e he p.1 (e.fst_mem_downstreams before x p hp)

/-- **One push**: it is the first entry of the log, the rest is what the elements up to `i`
push into elements before them, and if all of these have pushed their answers before, they have
afterwards. -/
theorem push_spec (i : ℕ) (sender : Sender) (hsender : ∀ k ≤ i, sender ≠ .element k) (x : V)
    {s : GraphState g} (hs : ∀ k ≤ i, s.Carries k) :
    PushSpec sender i x s (push g sender i x s) := by
  induction i using Nat.strong_induction_on generalizing sender x s with
  | _ i ih =>
      rw [push]
      set downstream : GraphState g → ℕ × V → GraphState g := fun s p =>
        if _h : p.1 < i then push g (.element i) p.1 p.2 s else s
      set s₁ : GraphState g := { s with log := s.log ++ [⟨sender, i, x⟩] }
      have hdown : ∀ d < i, ∀ x s, (∀ k ≤ d, s.Carries k) →
          PushSpec (.element i) d x s (downstream s (d, x)) := by
        intro d hd x s hs
        have hd' : downstream s (d, x) = push g (.element i) d x s := dif_pos hd
        rw [hd']
        exact ih d hd (.element i) (fun k hk => Sender.element_ne_of_lt (by omega)) x hs
      -- The elements before `i` are not concerned by the push itself.
      have hs₁ : ∀ k < i, s₁.Carries k := by
        intro k hk
        refine (hs k hk.le).congr rfl ?_ ?_
        · rw [pushedInto_append, pushedInto_cons, if_neg (by simp only; omega)]
          simp [pushedInto]
        · rw [pushedBy_append, pushedBy_cons, if_neg (hsender k hk.le)]
          simp [pushedBy]
      obtain ⟨m', hpush, hm'⟩ :=
        (g.element i).remembers.step downstream s₁ x (hs i le_rfl).knows
      have hpushes := pushes_spec hdown _ (g.answer_lt i (pushedInto i s.log) x) hs₁
      rw [hpush]
      set s₂ := ((g.element i).answer (pushedInto i s.log) x).foldl downstream s₁
      obtain ⟨later, hlog, hsent, hbelow⟩ := hpushes.log
      have hlog' : s₂.log = s.log ++ ⟨sender, i, x⟩ :: later := by
        rw [hlog, List.append_assoc]
        rfl
      refine ⟨⟨later, hlog', hbelow⟩, fun k hk => ?_, fun k hk => ?_⟩
      · exact (Function.update_of_ne hk.ne' _ _).trans (hpushes.frame k hk.le)
      · rcases Nat.lt_or_eq_of_le hk with hk | rfl
        · refine (hpushes.carries k hk).congr ?_ rfl rfl
          exact Function.update_of_ne hk.ne _ _
        · have hreceived : pushedInto k s₂.log = pushedInto k s.log ++ [x] := by
            rw [hlog', pushedInto_append, pushedInto_cons, if_pos rfl,
              hbelow.pushedInto_eq_nil le_rfl, List.append_nil]
          have hsentBy : pushedBy k s₂.log =
              pushedBy k s.log ++ (g.element k).answer (pushedInto k s.log) x := by
            rw [hlog', pushedBy_append, pushedBy_cons, if_neg (hsender k le_rfl), hsent]
            rfl
          refine ⟨?_, ?_⟩
          · change (g.element k).Knows (pushedInto k s₂.log) (Function.update s₂.members k m' k)
            rw [hreceived, Function.update_self]
            exact hm'
          · change pushedBy k s₂.log = fromHistory (g.element k).answer [] (pushedInto k s₂.log)
            rw [hreceived, fromHistory_concat, ← (hs k le_rfl).sent]
            exact hsentBy

/-- **Every graph carries.** In every run, whatever is pushed into which elements from outside:
each element has pushed downstream exactly its answers to what has been pushed into it, one
after another and in this order, and its members are those of what has been pushed into it. -/
theorem pushGraph_carries {s : GraphState g} (h : (pushGraph g).Reachable s) (i : ℕ) :
    pushedBy i s.log = fromHistory (g.element i).answer [] (pushedInto i s.log) ∧
      (g.element i).Knows (pushedInto i s.log) (s.members i) := by
  have hcarries : ∀ k, s.Carries k := by
    refine h.invariant (I := fun s => ∀ k, s.Carries k) ?_ ?_
    · exact fun k => ⟨(g.element k).remembers.init, rfl⟩
    · rintro s ⟨j, x⟩ s' - hs hstep k
      obtain rfl : push g .outside j x s = s' := Option.some.inj hstep
      have hspec := push_spec j .outside (fun _ _ => by simp) x fun k _ => hs k
      exact hspec.carries_of_ne (by simp) (hs k)
  exact ⟨(hcarries i).sent, (hcarries i).knows⟩

end Spec

/-- Even numbers go to a register and, twice, to a `Dedup` that makes one out of two; odd
numbers to a counter. -/
def evenOdd : PushGraph ℕ where
  elements := [.lambda, .register, .counter 0, .dedup 2 2, .dup 2 3, .tee [1, 4],
    .ifElse (· % 2 = 0) 5 2]
  backward := by
    intro i e he d hd
    have hi : i < 7 := (List.getElem?_eq_some_iff.mp he).1
    interval_cases i <;> obtain rfl := Option.some.inj he <;>
      simp [Element.downstreams] at hd <;> omega

/-- A `4` and a `3` are pushed into `evenOdd`: the counter gets one of each. -/
theorem pushGraph_carries_even_odd : ∃ s,
    (pushGraph evenOdd).run (pushGraph evenOdd).init [(6, 4), (6, 3)] = some s ∧
      pushedInto 2 s.log = [4, 3] ∧ pushedBy 2 s.log = [(0, 4), (0, 3)] ∧
      pushedBy 5 s.log = [(1, 4), (4, 4)] ∧ s.members 2 = (2 : ℤ) := by
  have hrun : ((pushGraph evenOdd).run (pushGraph evenOdd).init [(6, 4), (6, 3)]).map
      (fun s => (pushedInto 2 s.log, pushedInto 5 s.log)) = some ([4, 3], [4]) := by
    decide +kernel
  obtain ⟨s, hs, hlog⟩ := Option.map_eq_some_iff.mp hrun
  obtain ⟨htwo, hfive⟩ := Prod.mk.inj hlog
  obtain ⟨hsent, hcount⟩ := pushGraph_carries (Machine.reachable_of_run hs) 2
  have hsent' := (pushGraph_carries (Machine.reachable_of_run hs) 5).1
  rw [htwo] at hsent hcount
  rw [hfive] at hsent'
  exact ⟨s, hs, htwo, hsent, hsent', hcount⟩

end LatticeFlow
