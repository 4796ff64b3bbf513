import Mathlib.Logic.Function.Iterate
import LatticeFlow.Lib.Ordered
import LatticeFlow.Lib.Transducer

/-!
# Push and Pull Pipelines

The operators `Id`, `Map`, `Filter`, `Dup` and `Dedup` of `pushpull/`. Each comes twice. A
`Push` operator is given elements and hands elements to the operator downstream of it; a
`Pull` operator is asked, asks the operator upstream of it, and returns an element or
nothing. The two versions of an operator are written separately: pulled, a rejected element
becomes a hole, and `Dup` and `Dedup` repeat and count the holes too.

An operator is modelled by its own members and by its method, over the state `S` of whatever
its pointer leads to. Composition puts another operator there.

The counters of `Dup` and `Dedup` are of type `int`. They never exceed `num_dups`, so that
they do not overflow, and are natural numbers here.

## Main results

* `PushOperator.Pushes`, `PullOperator.Pulls`: what an operator computes, as a function of
  sequences; both compose.
* `PushOperator.Remembers.pushes`: an operator that answers from what has been pushed.
* `Op.pushes`, `Op.pulls`: both versions of an operator compute the same function.
* `pull_agrees_with_push`: a pull chain returns what the push chain with the same operators
  delivers.
-/

namespace LatticeFlow

/-! ### Operators and chains -/

/-- A push operator: its members, and its `push` over any downstream. -/
structure PushOperator (α β : Type) where
  State : Type
  init : State
  push {S : Type} (downstream : S → β → S) : State × S → α → State × S

/-- A pull operator: its members, and its `pull` over any upstream. -/
structure PullOperator (α β : Type) where
  State : Type
  init : State
  pull {S : Type} (upstream : S → Option α × S) : State × S → Option β × (State × S)

variable {α β γ T : Type}

/-- `P`, with `Q` downstream of it. -/
def PushOperator.comp (P : PushOperator α β) (Q : PushOperator β γ) : PushOperator α γ where
  State := P.State × Q.State
  init := (P.init, Q.init)
  push downstream s x :=
    let r := P.push (Q.push downstream) (s.1.1, (s.1.2, s.2)) x
    ((r.1, r.2.1), r.2.2)

/-- `Q`, with `P` upstream of it. -/
def PullOperator.comp (P : PullOperator α β) (Q : PullOperator β γ) : PullOperator α γ where
  State := P.State × Q.State
  init := (P.init, Q.init)
  pull upstream s :=
    let r := Q.pull (P.pull upstream) (s.1.2, (s.1.1, s.2))
    (r.1, ((r.2.2.1, r.2.1), r.2.2.2))

/-! ### Operators without members -/

/-- `Id<Push>`. -/
def idPush (T : Type) : PushOperator T T where
  State := Unit
  init := ()
  push downstream s x := (s.1, downstream s.2 x)

/-- `Id<Pull>`. -/
def idPull (T : Type) : PullOperator T T where
  State := Unit
  init := ()
  pull upstream s :=
    let (x, up) := upstream s.2
    (x, (s.1, up))

/-- `Map<Push>`. -/
def mapPush (f_ : α → β) : PushOperator α β where
  State := Unit
  init := ()
  push downstream s x := (s.1, downstream s.2 (f_ x))

/-- `Map<Pull>`. -/
def mapPull (f_ : α → β) : PullOperator α β where
  State := Unit
  init := ()
  pull upstream s :=
    match upstream s.2 with
    | (some x, up) => (some (f_ x), (s.1, up))
    | (none, up) => (none, (s.1, up))

/-- `Filter<Push>`. -/
def filterPush (predicate_ : T → Bool) : PushOperator T T where
  State := Unit
  init := ()
  push downstream s x := if predicate_ x then (s.1, downstream s.2 x) else s

/-- `Filter<Pull>`. -/
def filterPull (predicate_ : T → Bool) : PullOperator T T where
  State := Unit
  init := ()
  pull upstream s :=
    match upstream s.2 with
    | (some x, up) => if predicate_ x then (some x, (s.1, up)) else (none, (s.1, up))
    | (none, up) => (none, (s.1, up))

/-- `Dup<Push>`. -/
def dupPush (T : Type) (num_dups_ : ℕ) : PushOperator T T where
  State := Unit
  init := ()
  push downstream s x := (s.1, (fun down => downstream down x)^[num_dups_] s.2)

/-! ### Dup<Pull> -/

/-- The members of `Dup<Pull>`. -/
structure DupPull (T : Type) where
  num_dups_sent_ : ℕ := 0
  buf_ : Option T := none

/-- `Dup<Pull>`. -/
def dupPull (T : Type) (num_dups_ : ℕ) : PullOperator T T where
  State := DupPull T
  init := {}
  pull upstream s :=
    let num_dups_sent_ := if s.1.num_dups_sent_ = num_dups_ then 0 else s.1.num_dups_sent_
    let (buf_, up) := if num_dups_sent_ = 0 then upstream s.2 else (s.1.buf_, s.2)
    (buf_, (⟨num_dups_sent_ + 1, buf_⟩, up))

/-! ### Dedup -/

/-- `counts_[x]++`, and then `counts_[x] = 0` if the count is `num_dups_`. Returns whether
it was, and the counts. -/
def dedupCount {K : Type} (less : K → K → Bool) (num_dups_ : ℕ) (counts_ : OrderedMap K ℕ)
    (x : K) : Bool × OrderedMap K ℕ :=
  let counts_ := counts_.update less x fun c => c.getD 0 + 1
  if (counts_.find less x).getD 0 = num_dups_ then
    (true, counts_.update less x fun _ => 0)
  else
    (false, counts_)

/-- `Dedup<Push>`, with `operator<` of `T`. -/
def dedupPush (less : T → T → Bool) (num_dups_ : ℕ) : PushOperator T T where
  State := OrderedMap T ℕ
  init := []
  push downstream s x :=
    match dedupCount less num_dups_ s.1 x with
    | (true, counts_) => (counts_, downstream s.2 x)
    | (false, counts_) => (counts_, s.2)

/-- `operator<` of `boost::optional`: nothing is smaller than everything else. -/
def optionalLess (less : T → T → Bool) : Option T → Option T → Bool
  | _, none => false
  | none, some _ => true
  | some x, some y => less x y

/-- `Dedup<Pull>`. -/
def dedupPull (less : T → T → Bool) (num_dups_ : ℕ) : PullOperator T T where
  State := OrderedMap (Option T) ℕ
  init := []
  pull upstream s :=
    let (x, up) := upstream s.2
    match dedupCount (optionalLess less) num_dups_ s.1 x with
    | (true, counts_) => (x, (counts_, up))
    | (false, counts_) => (none, (counts_, up))

/-! ### Chains -/

/-- One operator, in either direction. -/
inductive Op : Type → Type → Type 1
  | id {T : Type} : Op T T
  | map {From To : Type} (f : From → To) : Op From To
  | filter {T : Type} (predicate : T → Bool) : Op T T
  | dup {T : Type} (num_dups : ℕ) (pos : 1 ≤ num_dups) : Op T T
  | dedup {T : Type} (less : T → T → Bool) (num_dups : ℕ) (pos : 1 ≤ num_dups) : Op T T

/-- The `Push` version of an operator. -/
def Op.push : {α β : Type} → Op α β → PushOperator α β
  | _, _, .id => idPush _
  | _, _, .map f => mapPush f
  | _, _, .filter predicate => filterPush predicate
  | _, _, .dup num_dups _ => dupPush _ num_dups
  | _, _, .dedup less num_dups _ => dedupPush less num_dups

/-- The `Pull` version of an operator. -/
def Op.pull : {α β : Type} → Op α β → PullOperator α β
  | _, _, .id => idPull _
  | _, _, .map f => mapPull f
  | _, _, .filter predicate => filterPull predicate
  | _, _, .dup num_dups _ => dupPull _ num_dups
  | _, _, .dedup less num_dups _ => dedupPull less num_dups

/-- A chain of operators, in the order in which elements pass them. -/
inductive Chain : Type → Type → Type 1
  | nil {T : Type} : Chain T T
  | cons {α β γ : Type} (op : Op α β) (rest : Chain β γ) : Chain α γ

/-- The chain of the `Push` versions. Without an operator an element goes straight on. -/
def Chain.push : {α β : Type} → Chain α β → PushOperator α β
  | _, _, .nil => idPush _
  | _, _, .cons op rest => op.push.comp rest.push

/-- The chain of the `Pull` versions. -/
def Chain.pull : {α β : Type} → Chain α β → PullOperator α β
  | _, _, .nil => idPull _
  | _, _, .cons op rest => op.pull.comp rest.pull

/-- A source that returns the elements and holes of a list, and then nothing for ever. -/
def sourcePull : List (Option T) → Option T × List (Option T)
  | [] => (none, [])
  | x :: xs => (x, xs)

/-- A sink that keeps what is pushed into it. -/
def sinkPush (xs : List T) (x : T) : List T :=
  xs ++ [x]

/-- What the chain delivers to a sink when the elements are pushed one by one. -/
def Chain.pushed (c : Chain α β) (xs : List α) : List β :=
  (xs.foldl (c.push.push sinkPush) (c.push.init, [])).2

/-- What the first pulls of the chain return over a source. -/
def Chain.pulled (c : Chain α β) (source : List (Option α)) (n : ℕ) : List (Option β) :=
  (asks (c.pull.pull sourcePull) n (c.pull.init, source)).1

/-! ### What an operator computes -/

/-- Pushing `xs` pushes `f xs` downstream, whatever is there. -/
def PushOperator.Pushes (P : PushOperator α β) (f : List α → List β) : Prop :=
  ∀ (S : Type) (downstream : S → β → S) (s : S) (xs : List α),
    (xs.foldl (P.push downstream) (P.init, s)).2 = (f xs).foldl downstream s

/-- Over an upstream that delivers `xs` the operator delivers `f xs`. -/
def PullOperator.Pulls (Q : PullOperator α β) (f : List α → List β) : Prop :=
  ∀ (S : Type) (upstream : S → Option α × S) (s : S) (xs : List α),
    Delivers (answers upstream s) xs →
      Delivers (answers (Q.pull upstream) (Q.init, s)) (f xs)

/-- Two operators, one after the other, push what the second one makes of the first one's. -/
theorem PushOperator.Pushes.comp {P : PushOperator α β} {Q : PushOperator β γ}
    {f : List α → List β} {g : List β → List γ} (hP : P.Pushes f) (hQ : Q.Pushes g) :
    (P.comp Q).Pushes (g ∘ f) := by
  intro S downstream s xs
  -- The composite is `P` over `Q`, with its state in another order.
  let assoc : P.State × (Q.State × S) → (P.State × Q.State) × S :=
    fun s => ((s.1, s.2.1), s.2.2)
  have hassoc : xs.foldl ((P.comp Q).push downstream) (assoc (P.init, (Q.init, s))) =
      assoc (xs.foldl (P.push (Q.push downstream)) (P.init, (Q.init, s))) :=
    List.foldl_hom assoc fun _ _ => rfl
  calc (xs.foldl ((P.comp Q).push downstream) ((P.comp Q).init, s)).2
      = (xs.foldl (P.push (Q.push downstream)) (P.init, (Q.init, s))).2.2 :=
        congrArg Prod.snd hassoc
    _ = ((f xs).foldl (Q.push downstream) (Q.init, s)).2 := by rw [hP]
    _ = (g (f xs)).foldl downstream s := hQ S downstream s (f xs)

/-- The composite is `Q` over `P`, with its state in another order. -/
theorem PullOperator.asks_comp (P : PullOperator α β) (Q : PullOperator β γ) {S : Type}
    (upstream : S → Option α × S) (n : ℕ) (p : P.State) (q : Q.State) (s : S) :
    asks ((P.comp Q).pull upstream) n ((p, q), s) =
      let r := asks (Q.pull (P.pull upstream)) n (q, (p, s))
      (r.1, ((r.2.2.1, r.2.1), r.2.2.2)) :=
  asks_hom (fun s : Q.State × (P.State × S) => ((s.2.1, s.1), s.2.2)) (fun _ => rfl) n (q, (p, s))

/-- And two operators, one after the other, deliver it when they are pulled. -/
theorem PullOperator.Pulls.comp {P : PullOperator α β} {Q : PullOperator β γ}
    {f : List α → List β} {g : List β → List γ} (hP : P.Pulls f) (hQ : Q.Pulls g) :
    (P.comp Q).Pulls (g ∘ f) := by
  intro S upstream s xs hxs
  have hanswers : answers ((P.comp Q).pull upstream) ((P.comp Q).init, s) =
      answers (Q.pull (P.pull upstream)) (Q.init, (P.init, s)) :=
    funext fun n => congrArg (fun r => r.1.reduceOption)
      (P.asks_comp Q upstream n P.init Q.init s)
  rw [hanswers]
  exact hQ _ (P.pull upstream) (P.init, s) (f xs) (hP S upstream s xs hxs)

/-! ### Push operators -/

/-- What a push operator does with an element, seen by a sink. -/
@[reducible] def PushOperator.transducer (P : PushOperator α β) : Transducer α β where
  State := P.State
  init := P.init
  step m x :=
    let r := P.push sinkPush (m, []) x
    (r.2, r.1)

/-- The operator does the same over every downstream. -/
def PushOperator.Uniform (P : PushOperator α β) : Prop :=
  ∀ (S : Type) (downstream : S → β → S) (m : P.State) (s : S) (x : α),
    P.push downstream (m, s) x =
      ((P.transducer.step m x).2, (P.transducer.step m x).1.foldl downstream s)

/-- A uniform operator pushes what its transducer answers. -/
theorem PushOperator.Uniform.pushes {P : PushOperator α β} (h : P.Uniform) :
    P.Pushes P.transducer.run := by
  intro S downstream s xs
  have hfeed : ∀ (m : P.State) (s : S), xs.foldl (P.push downstream) (m, s) =
      ((P.transducer.feed m xs).2, (P.transducer.feed m xs).1.foldl downstream s) := by
    induction xs with
    | nil => exact fun _ _ => rfl
    | cons x xs ih =>
        intro m s
        rw [List.foldl_cons, h]
        refine (ih _ _).trans ?_
        rw [Transducer.feed_cons, List.foldl_append]
  exact congrArg Prod.snd (hfeed P.init s)

/-- The relation `R` between what has been pushed and the members of an operator is kept, and
makes it push downstream what `f` says of the element and those before it. -/
structure PushOperator.Remembers (P : PushOperator α β) (f : List α → α → List β)
    (R : List α → P.State → Prop) : Prop where
  init : R [] P.init
  step : ∀ {S : Type} (downstream : S → β → S) {before : List α} {m : P.State} (s : S) (x : α),
    R before m → ∃ m', P.push downstream (m, s) x = (m', (f before x).foldl downstream s) ∧
      R (before ++ [x]) m'

/-- What such an operator does with a sequence. -/
theorem PushOperator.Remembers.foldl_push {P : PushOperator α β} {f : List α → α → List β}
    {R : List α → P.State → Prop} (h : P.Remembers f R) {S : Type} (downstream : S → β → S)
    (s : S) (xs : List α) :
    ∃ m, xs.foldl (P.push downstream) (P.init, s) =
      (m, (fromHistory f [] xs).foldl downstream s) ∧ R xs m := by
  induction xs using List.reverseRecOn with
  | nil => exact ⟨P.init, rfl, h.init⟩
  | append_singleton xs x ih =>
      obtain ⟨m, hxs, hm⟩ := ih
      obtain ⟨m', hx, hm'⟩ := h.step downstream ((fromHistory f [] xs).foldl downstream s) x hm
      refine ⟨m', ?_, hm'⟩
      rw [List.foldl_append, hxs, fromHistory_concat, List.foldl_append, List.foldl_cons, hx]
      rfl

/-- An operator that answers from its history pushes these answers. -/
theorem PushOperator.Remembers.pushes {P : PushOperator α β} {f : List α → α → List β}
    {R : List α → P.State → Prop} (h : P.Remembers f R) : P.Pushes (fromHistory f []) := by
  intro S downstream s xs
  obtain ⟨m, hxs, -⟩ := h.foldl_push downstream s xs
  rw [hxs]

/-- The loop of `Dup<Push>` pushes so many copies. -/
theorem foldl_replicate {S : Type} (downstream : S → T → S) (n : ℕ) (x : T) (s : S) :
    (List.replicate n x).foldl downstream s = (fun s => downstream s x)^[n] s := by
  induction n generalizing s with
  | zero => rfl
  | succ n ih => rw [List.replicate_succ, List.foldl_cons, ih, Function.iterate_succ_apply]

/-- A sink keeps what is pushed into it, in order. -/
theorem foldl_sinkPush (xs ys : List T) : xs.foldl sinkPush ys = ys ++ xs := by
  induction xs generalizing ys with
  | nil => rw [List.foldl_nil, List.append_nil]
  | cons x xs ih => rw [List.foldl_cons, ih, sinkPush, List.append_assoc]; rfl

/-- The same value, pushed into a sink several times. -/
theorem iterate_sinkPush (n : ℕ) (x : T) :
    (fun ys => sinkPush ys x)^[n] [] = List.replicate n x := by
  rw [← foldl_replicate, foldl_sinkPush, List.nil_append]

/-- Every push operator is uniform. -/
theorem Op.uniform (op : Op α β) : op.push.Uniform := by
  cases op with
  | id => exact fun _ _ _ _ _ => rfl
  | map f => exact fun _ _ _ _ _ => rfl
  | filter predicate =>
      intro S downstream m s x
      by_cases hp : predicate x = true
      · simp [Op.push, PushOperator.transducer, filterPush, hp, sinkPush]
      · simp [Op.push, PushOperator.transducer, filterPush, hp]
  | dup num_dups pos =>
      intro S downstream m s x
      simp only [Op.push, PushOperator.transducer, dupPush, iterate_sinkPush, foldl_replicate]
  | dedup less num_dups pos =>
      intro S downstream m s x
      simp only [Op.push, PushOperator.transducer, dedupPush]
      rcases dedupCount less num_dups m x with ⟨b, counts⟩
      cases b with
      | true => rfl
      | false => rfl

/-- What an operator computes. -/
def Op.denote (op : Op α β) : List α → List β :=
  op.push.transducer.run

/-- The push version of an operator pushes its denotation. -/
theorem Op.pushes (op : Op α β) : op.push.Pushes op.denote :=
  op.uniform.pushes

/-! ### Pull operators -/

/-- In rounds of `k` pulls the operator pulls once upstream and returns what the transducer
makes of the element it gets; of a hole it makes nothing. -/
structure PullOperator.Follows (Q : PullOperator α β) (t : Transducer α β) (k : ℕ)
    (R : t.State → Q.State → Prop) : Prop where
  pos : 0 < k
  init : R t.init Q.init
  hole : ∀ {S : Type} {upstream : S → Option α × S} {m : t.State} {q : Q.State} {s s' : S},
    R m q → upstream s = (none, s') →
      ∃ q', R m q' ∧ (asks (Q.pull upstream) k (q, s)).1.reduceOption = [] ∧
        (asks (Q.pull upstream) k (q, s)).2 = (q', s')
  element : ∀ {S : Type} {upstream : S → Option α × S} {m : t.State} {q : Q.State} {s s' : S}
    {x : α}, R m q → upstream s = (some x, s') →
      ∃ q', R (t.step m x).2 q' ∧
        (asks (Q.pull upstream) k (q, s)).1.reduceOption = (t.step m x).1 ∧
        (asks (Q.pull upstream) k (q, s)).2 = (q', s')

namespace PullOperator.Follows

variable {Q : PullOperator α β} {t : Transducer α β} {k : ℕ} {R : t.State → Q.State → Prop}

/-- After so many rounds. -/
theorem rounds (h : Q.Follows t k R) {S : Type} {upstream : S → Option α × S} {m : t.State}
    {q : Q.State} (hR : R m q) (s : S) (n : ℕ) :
    (asks (Q.pull upstream) (k * n) (q, s)).1.reduceOption =
      (t.feed m (answers upstream s n)).1 := by
  induction n generalizing m q s with
  | zero => rfl
  | succ n ih =>
      rw [Nat.mul_succ, Nat.add_comm, asks_add, List.reduceOption_append]
      rcases hup : upstream s with ⟨o, s'⟩
      have hrest : answers upstream s (n + 1) = o.toList ++ answers upstream s' n := by
        cases o <;> simp [answers, asks, hup]
      cases o with
      | none =>
          obtain ⟨q', hR', hout, hstate⟩ := h.hole hR hup
          rw [hout, hstate, ih hR', hrest]
          rfl
      | some x =>
          obtain ⟨q', hR', hout, hstate⟩ := h.element hR hup
          rw [hout, hstate, ih hR', hrest]
          rfl

/-- An operator that follows a transducer delivers what it computes. -/
theorem pulls (h : Q.Follows t k R) : Q.Pulls t.run := by
  intro S upstream s xs hxs
  exact hxs.transduce t h.pos (fun _ _ => answers_mono _ _) (h.rounds h.init s)

/-- An operator that answers each element at once. -/
theorem of_pull {R : t.State → Q.State → Prop} (hinit : R t.init Q.init)
    (hhole : ∀ {S : Type} {upstream : S → Option α × S} {m : t.State} {q : Q.State} {s s' : S},
      R m q → upstream s = (none, s') →
        ∃ q', R m q' ∧ Q.pull upstream (q, s) = (none, (q', s')))
    (helement : ∀ {S : Type} {upstream : S → Option α × S} {m : t.State} {q : Q.State}
      {s s' : S} {x : α}, R m q → upstream s = (some x, s') →
        ∃ o q', R (t.step m x).2 q' ∧ o.toList = (t.step m x).1 ∧
          Q.pull upstream (q, s) = (o, (q', s'))) :
    Q.Follows t 1 R where
  pos := Nat.one_pos
  init := hinit
  hole hR hup := by
    obtain ⟨q', hR', hpull⟩ := hhole hR hup
    exact ⟨q', hR', by simp [asks, hpull], by simp [asks, hpull]⟩
  element hR hup := by
    obtain ⟨o, q', hR', ho, hpull⟩ := helement hR hup
    refine ⟨q', hR', ?_, by simp [asks, hpull]⟩
    rw [← ho, ← List.reduceOption_singleton]
    simp [asks, hpull]

end PullOperator.Follows

/-- `Id<Pull>` does what `Id<Push>` does. -/
theorem follows_idPull : (idPull T).Follows (idPush T).transducer 1 fun _ _ => True := by
  refine .of_pull trivial ?_ ?_
  · intro S upstream m q s s' _ hup
    exact ⟨q, trivial, by simp [idPull, hup]⟩
  · intro S upstream m q s s' x _ hup
    exact ⟨some x, q, trivial, rfl, by simp [idPull, hup]⟩

/-- `Map<Pull>` does what `Map<Push>` does. -/
theorem follows_mapPull (f : α → β) :
    (mapPull f).Follows (mapPush f).transducer 1 fun _ _ => True := by
  refine .of_pull trivial ?_ ?_
  · intro S upstream m q s s' _ hup
    exact ⟨q, trivial, by simp [mapPull, hup]⟩
  · intro S upstream m q s s' x _ hup
    exact ⟨some (f x), q, trivial, rfl, by simp [mapPull, hup]⟩

/-- `Filter<Pull>` does what `Filter<Push>` does, and leaves holes. -/
theorem follows_filterPull (predicate : T → Bool) :
    (filterPull predicate).Follows (filterPush predicate).transducer 1 fun _ _ => True := by
  refine .of_pull trivial ?_ ?_
  · intro S upstream m q s s' _ hup
    exact ⟨q, trivial, by simp [filterPull, hup]⟩
  · intro S upstream m q s s' x _ hup
    by_cases hp : predicate x = true
    · exact ⟨some x, q, trivial, by simp [filterPush, hp, sinkPush],
        by simp [filterPull, hup, hp]⟩
    · exact ⟨none, q, trivial, by simp [filterPush, hp], by simp [filterPull, hup, hp]⟩

/-! ### Dup<Pull> in rounds -/

/-- In the middle of a round the buffer is returned again. -/
theorem asks_dupPull_buf {num_dups : ℕ} {S : Type} {upstream : S → Option T × S}
    {buf : Option T} {s : S} (i : ℕ) {sent : ℕ} (hpos : 0 < sent) (hi : sent + i ≤ num_dups) :
    asks ((dupPull T num_dups).pull upstream) i (⟨sent, buf⟩, s) =
      (List.replicate i buf, (⟨sent + i, buf⟩, s)) := by
  induction i generalizing sent with
  | zero => rfl
  | succ i ih =>
      have hsent : sent ≠ num_dups := by omega
      have hpull : (dupPull T num_dups).pull upstream (⟨sent, buf⟩, s) =
          (buf, (⟨sent + 1, buf⟩, s)) := by
        simp [dupPull, hsent, hpos.ne']
      simp only [asks, hpull]
      rw [ih (by omega) (by omega), List.replicate_succ, Nat.add_assoc, Nat.add_comm 1 i]

/-- A round of `Dup<Pull>`: one pull upstream, and what it returned so many times. -/
theorem asks_dupPull {num_dups : ℕ} (hpos : 1 ≤ num_dups) {S : Type}
    {upstream : S → Option T × S} {q : DupPull T} {s s' : S} {o : Option T}
    (hq : q.num_dups_sent_ = 0 ∨ q.num_dups_sent_ = num_dups) (hup : upstream s = (o, s')) :
    asks ((dupPull T num_dups).pull upstream) num_dups (q, s) =
      (List.replicate num_dups o, (⟨num_dups, o⟩, s')) := by
  obtain ⟨i, rfl⟩ := Nat.exists_eq_add_of_le hpos
  have hpull : (dupPull T (1 + i)).pull upstream (q, s) = (o, (⟨1, o⟩, s')) := by
    rcases hq with h | h <;> simp [dupPull, h, hup]
  rw [Nat.add_comm, asks, Nat.add_comm, hpull]
  simp only
  rw [asks_dupPull_buf i Nat.one_pos le_rfl, Nat.add_comm, List.replicate_succ]

/-- `Dup<Pull>` gives the copies of `Dup<Push>` one by one, between two of its elements. -/
theorem follows_dupPull {num_dups : ℕ} (pos : 1 ≤ num_dups) :
    (dupPull T num_dups).Follows (dupPush T num_dups).transducer num_dups
      fun _ q => q.num_dups_sent_ = 0 ∨ q.num_dups_sent_ = num_dups where
  pos := pos
  init := .inl rfl
  hole hR hup := by
    refine ⟨⟨num_dups, none⟩, .inr rfl, ?_, by rw [asks_dupPull pos hR hup]⟩
    rw [asks_dupPull pos hR hup]
    exact List.reduceOption_replicate_none
  element {_ _ _ _ _ _ x} hR hup := by
    refine ⟨⟨num_dups, some x⟩, .inr rfl, ?_, by rw [asks_dupPull pos hR hup]⟩
    rw [asks_dupPull pos hR hup]
    have hcopies : (List.replicate num_dups (some x)).reduceOption = List.replicate num_dups x :=
      List.filterMap_replicate_of_some rfl
    exact hcopies.trans (iterate_sinkPush num_dups x).symm

/-! ### Dedup<Pull> and its holes -/

section Dedup

variable (less : T → T → Bool)

/-- Counts of elements, as counts of optional elements. -/
def someCounts (counts : OrderedMap T ℕ) : OrderedMap (Option T) ℕ :=
  counts.map fun e => (some e.1, e.2)

/-- The pull version counts the elements as the push version does, and maybe the holes, in
front of them. -/
def CountsAlso (counts : OrderedMap T ℕ) (q : OrderedMap (Option T) ℕ) : Prop :=
  q = someCounts counts ∨ ∃ c, q = (none, c) :: someCounts counts

/-- An update of the counts of the values is one of the optional values. -/
theorem update_someCounts (counts : OrderedMap T ℕ) (x : T) (f : Option ℕ → ℕ) :
    (someCounts counts).update (optionalLess less) (some x) f =
      someCounts (counts.update less x f) := by
  induction counts with
  | nil => rfl
  | cons e counts ih =>
      obtain ⟨y, c⟩ := e
      simp only [someCounts, List.map_cons] at ih ⊢
      by_cases hyx : less y x = true
      · simp [OrderedMap.update, optionalLess, hyx, ih]
      · by_cases hxy : less x y = true
        · simp [OrderedMap.update, optionalLess, hyx, hxy]
        · simp [OrderedMap.update, optionalLess, hyx, hxy]

/-- A value is found among the optional values with its count. -/
theorem find_someCounts (counts : OrderedMap T ℕ) (x : T) :
    (someCounts counts).find (optionalLess less) (some x) = counts.find less x := by
  induction counts with
  | nil => rfl
  | cons e counts ih =>
      obtain ⟨y, c⟩ := e
      simp only [someCounts, List.map_cons] at ih ⊢
      simp only [OrderedMap.find, ih]
      rfl

namespace CountsAlso

variable {counts : OrderedMap T ℕ} {q : OrderedMap (Option T) ℕ}

/-- Both maps count one more copy of a value. -/
theorem update_some (h : CountsAlso counts q) (x : T) (f : Option ℕ → ℕ) :
    CountsAlso (counts.update less x f) (q.update (optionalLess less) (some x) f) := by
  obtain rfl | ⟨c, rfl⟩ := h
  · exact .inl (update_someCounts less counts x f)
  · -- The entry for the holes is smaller than every other: it is passed.
    refine .inr ⟨c, ?_⟩
    rw [← update_someCounts]
    rfl

/-- A hole is counted by the pulled map only. -/
theorem update_none (h : CountsAlso counts q) (f : Option ℕ → ℕ) :
    CountsAlso counts (q.update (optionalLess less) none f) := by
  obtain rfl | ⟨c, rfl⟩ := h
  · cases counts with
    | nil => exact .inr ⟨_, rfl⟩
    | cons e counts => exact .inr ⟨_, rfl⟩
  · exact .inr ⟨_, rfl⟩

/-- Both maps have the same count of a value. -/
theorem find_some (h : CountsAlso counts q) (x : T) :
    q.find (optionalLess less) (some x) = counts.find less x := by
  obtain rfl | ⟨c, rfl⟩ := h
  · exact find_someCounts less counts x
  · exact find_someCounts less counts x

/-- An element is counted in the same way on both sides. -/
theorem dedupCount_some (h : CountsAlso counts q) (num_dups : ℕ) (x : T) :
    (dedupCount (optionalLess less) num_dups q (some x)).1 =
        (dedupCount less num_dups counts x).1 ∧
      CountsAlso (dedupCount less num_dups counts x).2
        (dedupCount (optionalLess less) num_dups q (some x)).2 := by
  have hcount := h.update_some less x fun c => c.getD 0 + 1
  simp only [dedupCount, hcount.find_some]
  split_ifs
  · exact ⟨rfl, hcount.update_some less x _⟩
  · exact ⟨rfl, hcount⟩

/-- A hole changes the count of the holes only. -/
theorem dedupCount_none (h : CountsAlso counts q) (num_dups : ℕ) :
    CountsAlso counts (dedupCount (optionalLess less) num_dups q none).2 := by
  simp only [dedupCount]
  split_ifs
  · exact (h.update_none less _).update_none less _
  · exact h.update_none less _

end CountsAlso

/-- `Dedup<Pull>` does what `Dedup<Push>` does; the holes that it counts do not matter. -/
theorem follows_dedupPull (num_dups : ℕ) :
    (dedupPull less num_dups).Follows (dedupPush less num_dups).transducer 1 CountsAlso := by
  refine .of_pull (.inl rfl) ?_ ?_
  · intro S upstream counts q s s' hR hup
    refine ⟨_, hR.dedupCount_none less num_dups, ?_⟩
    simp only [dedupPull, hup]
    rcases dedupCount (optionalLess less) num_dups q none with ⟨b, q'⟩
    cases b with
    | true => rfl
    | false => rfl
  · intro S upstream counts q s s' x hR hup
    have hcount := hR.dedupCount_some less num_dups x
    simp only [dedupPull, dedupPush, hup]
    generalize dedupCount (optionalLess less) num_dups q (some x) = pulled at hcount ⊢
    generalize dedupCount less num_dups counts x = pushed at hcount ⊢
    obtain ⟨b, q'⟩ := pulled
    obtain ⟨b', counts'⟩ := pushed
    obtain ⟨rfl, hR'⟩ := hcount
    cases b with
    | true => exact ⟨some x, q', hR', rfl, rfl⟩
    | false => exact ⟨none, q', hR', rfl, rfl⟩

end Dedup

/-- **Both versions of an operator compute the same.** -/
theorem Op.pulls (op : Op α β) : op.pull.Pulls op.denote := by
  cases op with
  | id => exact follows_idPull.pulls
  | map f => exact (follows_mapPull f).pulls
  | filter predicate => exact (follows_filterPull predicate).pulls
  | dup num_dups pos => exact (follows_dupPull pos).pulls
  | dedup less num_dups pos => exact (follows_dedupPull less num_dups).pulls

/-! ### Chains compute the same -/

/-- What a chain computes. -/
def Chain.denote : {α β : Type} → Chain α β → List α → List β
  | _, _, .nil => Op.id.denote
  | _, _, .cons op rest => rest.denote ∘ op.denote

/-- **A chain of push operators** pushes its denotation. -/
theorem Chain.pushes (c : Chain α β) : c.push.Pushes c.denote := by
  induction c with
  | nil => exact Op.id.pushes
  | cons op rest ih => exact op.pushes.comp ih

/-- **A chain of pull operators** delivers its denotation. -/
theorem Chain.pulls (c : Chain α β) : c.pull.Pulls c.denote := by
  induction c with
  | nil => exact Op.id.pulls
  | cons op rest ih => exact op.pulls.comp ih

/-- The source returns its list from the front. -/
theorem answers_sourcePull (source : List (Option T)) (n : ℕ) :
    answers sourcePull source n = (source.take n).reduceOption := by
  induction n generalizing source with
  | zero => rfl
  | succ n ih =>
      simp only [answers, asks] at ih ⊢
      cases source with
      | nil => simpa [sourcePull] using ih []
      | cons x xs => cases x <;> simp [sourcePull, ih]

/-- A source delivers its values, without its holes. -/
theorem delivers_sourcePull (source : List (Option T)) :
    Delivers (answers sourcePull source) source.reduceOption where
  beginning n := by
    rw [answers_sourcePull]
    exact (List.take_prefix n source).reduceOption
  complete := ⟨source.length, fun n hn => by rw [answers_sourcePull, List.take_of_length_le hn]⟩

/-- What a chain has pushed into a sink. -/
theorem Chain.pushed_eq (c : Chain α β) (xs : List α) : c.pushed xs = c.denote xs :=
  (c.pushes _ sinkPush [] xs).trans (foldl_sinkPush _ _)

/-- **Push and pull pipelines agree.** Over any source of elements and holes, what the first
pulls of the pull chain return, without the holes, is at any time a beginning of what the
push chain with the same operators delivers when the elements of the source are pushed, and
in the end it is all of that. -/
theorem pull_agrees_with_push (c : Chain α β) (source : List (Option α)) :
    (∀ n, (c.pulled source n).reduceOption <+: c.pushed source.reduceOption) ∧
      ∃ n₀, ∀ n, n₀ ≤ n → (c.pulled source n).reduceOption = c.pushed source.reduceOption := by
  have hdelivers := c.pulls _ sourcePull source _ (delivers_sourcePull source)
  rw [c.pushed_eq]
  exact ⟨hdelivers.beginning, hdelivers.complete⟩

end LatticeFlow
