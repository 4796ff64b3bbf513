import Mathlib.Data.Fintype.Card
import LatticeFlow.Gossip

/-!
# Start-up of the Server

This module models the start-up code of `worker_routine` in `key_value_stores/server.cc`:
each of the four workers binds its publisher, enters the barrier, connects its subscriber
to the other publishers one after another, sets the empty subscription, and then runs its
driver, which processes requests and receives gossip.

A publisher socket drops what it publishes for a peer whose subscriber has not connected
to it and subscribed yet; `dropped` records these messages. Everything else is the cluster
of `LatticeFlow.Gossip`.

The barrier stands before the connections. It makes sure that all publishers are bound
when a worker starts to connect (`bound_of_connecting`), not that all workers have
subscribed when the first one runs its driver.

## Main results

* `bound_of_connecting`: what the barrier guarantees.
* `reachesAll_iff`: a publication reaches everyone exactly if every other worker has set its
  subscription.
* `quiet_run`: in runs in which every non-empty PUT is processed then, nothing is dropped,
  and the cluster behaves as if all workers had been subscribed from the beginning.
-/

namespace LatticeFlow

/-- Where a worker is in `worker_routine`. -/
inductive WorkerPc
  /-- Before `publisher.bind`. -/
  | created
  /-- Before `all_threads_bound->enter()`. -/
  | bound
  /-- Waiting in the barrier. -/
  | waiting
  /-- At the head of the loop of `subscriber.connect`, with this loop variable. -/
  | connecting (i : ℕ)
  /-- After `subscriber.setsockopt(ZMQ_SUBSCRIBE, ..)`, before `driver.Run()`. -/
  | subscribed
  /-- In `driver.Run()`. -/
  | running
  deriving DecidableEq, Repr

/-- The workers with their sockets, the barrier's counter, and the cluster they form. -/
structure Startup where
  pc : ThreadId → WorkerPc
  /-- `count_` of the barrier. -/
  count_ : ℕ
  /-- `connected j i`: the subscriber of `j` is connected to the publisher of `i`. -/
  connected : ThreadId → ThreadId → Bool
  /-- `subscribed j`: the subscriber of `j` has the empty subscription. -/
  subscribed : ThreadId → Bool
  cluster : Cluster
  /-- The messages that publishers have dropped. -/
  dropped : List Gossip

/-- A step: worker `i` performs its next start-up step, or it processes a request, or the
message at position `n` is received by its destination. -/
inductive StartupAction
  | next (i : ThreadId)
  | request (i : ThreadId) (request : Request)
  | deliver (n : ℕ)

namespace Startup

/-- The publisher of `g.src` has `g.dst` as a subscriber. -/
def reaches (s : Startup) (g : Gossip) : Bool :=
  s.connected g.dst g.src && s.subscribed g.dst

/-- The next start-up step of worker `i`. -/
def next (s : Startup) (i : ThreadId) : Option Startup :=
  match s.pc i with
  | .created => some { s with pc := Function.update s.pc i .bound }
  | .bound =>
      let count_ := s.count_ + 1
      some { s with
        count_ := count_
        pc := Function.update s.pc i (if numThreads ≤ count_ then .connecting 0 else .waiting) }
  | .waiting =>
      if s.count_ < numThreads then none
      else some { s with pc := Function.update s.pc i (.connecting 0) }
  | .connecting n =>
      if h : n < numThreads then
        some { s with
          pc := Function.update s.pc i (.connecting (n + 1))
          connected :=
            if n ≠ i then
              Function.update s.connected i (Function.update (s.connected i) ⟨n, h⟩ true)
            else s.connected }
      else
        some { s with
          pc := Function.update s.pc i .subscribed
          subscribed := Function.update s.subscribed i true }
  | .subscribed => some { s with pc := Function.update s.pc i .running }
  | .running => none

/-- Worker `i` processes a request; what it publishes is in flight to the subscribers it
has, and dropped for the others. -/
def request (s : Startup) (i : ThreadId) (request : Request) : Option Startup :=
  if s.pc i ≠ .running then none
  else
    match processRequest request (s.cluster.threads i) with
    | .error _ => none
    | .ok (_, state, published) =>
        some { s with
          cluster :=
            { threads := Function.update s.cluster.threads i state
              inFlight := s.cluster.inFlight ++ (publish i published).filter s.reaches
              accepted := s.cluster.accepted ++ (acceptedEntries request).map fun e => (i, e) }
          dropped := s.dropped ++ (publish i published).filter fun g => !s.reaches g }

/-- The message at position `n` is received, by a worker that runs its driver. -/
def deliver (s : Startup) (n : ℕ) : Option Startup :=
  match s.cluster.inFlight[n]? with
  | none => none
  | some g =>
      if s.pc g.dst ≠ .running then none
      else some { s with cluster := s.cluster.deliver n g }

end Startup

/-- The machine of the four workers from their creation on. -/
def startup : Machine Startup StartupAction where
  init :=
    { pc := fun _ => .created
      count_ := 0
      connected := fun _ _ => false
      subscribed := fun _ => false
      cluster := LatticeFlow.cluster.init
      dropped := [] }
  step s
    | .next i => s.next i
    | .request i request => s.request i request
    | .deliver n => s.deliver n

/-! ### What a step does -/

/-- The worker has entered the barrier. -/
def WorkerPc.entered : WorkerPc → Bool
  | .created | .bound => false
  | _ => true

/-- **What a worker's step does to the sockets and the barrier**, for every place it can be
at. -/
inductive StartupMove (s : Startup) (i : ThreadId) : Startup → Prop
  | bind : s.pc i = .created →
      StartupMove s i { s with pc := Function.update s.pc i .bound }
  | enterLast : s.pc i = .bound → numThreads ≤ s.count_ + 1 →
      StartupMove s i { s with
        count_ := s.count_ + 1
        pc := Function.update s.pc i (.connecting 0) }
  | enter : s.pc i = .bound → s.count_ + 1 < numThreads →
      StartupMove s i { s with
        count_ := s.count_ + 1
        pc := Function.update s.pc i .waiting }
  | wake : s.pc i = .waiting → numThreads ≤ s.count_ →
      StartupMove s i { s with pc := Function.update s.pc i (.connecting 0) }
  | skip : s.pc i = .connecting i →
      StartupMove s i { s with pc := Function.update s.pc i (.connecting (i + 1)) }
  | connect (j : ThreadId) : s.pc i = .connecting j → j ≠ i →
      StartupMove s i { s with
        pc := Function.update s.pc i (.connecting (j + 1))
        connected := Function.update s.connected i (Function.update (s.connected i) j true) }
  | subscribe (n : ℕ) : s.pc i = .connecting n → numThreads ≤ n →
      StartupMove s i { s with
        pc := Function.update s.pc i .subscribed
        subscribed := Function.update s.subscribed i true }
  | run : s.pc i = .subscribed →
      StartupMove s i { s with pc := Function.update s.pc i .running }

/-- What a start-up step does. -/
theorem Startup.next_move {s s' : Startup} {i : ThreadId} (h : s.next i = some s') :
    StartupMove s i s' := by
  simp only [Startup.next] at h
  split at h
  case h_1 hpc =>
      cases h
      exact .bind hpc
  case h_2 hpc =>
      cases h
      split_ifs with hcount
      · exact .enterLast hpc hcount
      · exact .enter hpc (by omega)
  case h_3 hpc =>
      split_ifs at h with hcount
      cases h
      exact .wake hpc (by omega)
  case h_4 n hpc =>
      split_ifs at h with hn hne
      · cases h
        exact .connect ⟨n, hn⟩ hpc fun heq => hne (congrArg Fin.val heq)
      · cases h
        obtain rfl : n = i := not_not.mp hne
        exact .skip hpc
      · cases h
        exact .subscribe n hpc (by omega)
  case h_5 hpc =>
      cases h
      exact .run hpc
  case h_6 => cases h

/-- **What a request does** to a worker that runs its driver. -/
theorem Startup.request_eq_some {s s' : Startup} {i : ThreadId} {request : Request}
    (h : s.request i request = some s') :
    s.pc i = .running ∧ ∃ response state published,
      processRequest request (s.cluster.threads i) = .ok (response, state, published) ∧
      s' = { s with
        cluster :=
          { threads := Function.update s.cluster.threads i state
            inFlight := s.cluster.inFlight ++ (publish i published).filter s.reaches
            accepted := s.cluster.accepted ++ (acceptedEntries request).map fun e => (i, e) }
        dropped := s.dropped ++ (publish i published).filter fun g => !s.reaches g } := by
  simp only [Startup.request] at h
  split_ifs at h with hpc
  split at h
  · cases h
  · rename_i hproc
    cases h
    exact ⟨not_not.mp hpc, _, _, _, hproc, rfl⟩

/-- What the receipt of a message does. -/
theorem Startup.deliver_eq_some {s s' : Startup} {n : ℕ} (h : s.deliver n = some s') :
    ∃ g, s.cluster.inFlight[n]? = some g ∧
      s' = { s with cluster := s.cluster.deliver n g } := by
  simp only [Startup.deliver] at h
  split at h
  · cases h
  · rename_i g hg
    split_ifs at h
    cases h
    exact ⟨g, hg, rfl⟩

/-- Requests and deliveries change no socket and no place in `worker_routine`. -/
theorem startup_step_cases {s s' : Startup} {a : StartupAction}
    (h : startup.step s a = some s') :
    (∃ i, StartupMove s i s') ∨
      (s'.pc = s.pc ∧ s'.count_ = s.count_ ∧ s'.connected = s.connected ∧
        s'.subscribed = s.subscribed) := by
  cases a with
  | next i => exact Or.inl ⟨i, Startup.next_move h⟩
  | request i request =>
      obtain ⟨-, _, _, _, -, rfl⟩ := Startup.request_eq_some h
      exact Or.inr ⟨rfl, rfl, rfl, rfl⟩
  | deliver n =>
      obtain ⟨_, -, rfl⟩ := Startup.deliver_eq_some h
      exact Or.inr ⟨rfl, rfl, rfl, rfl⟩

/-! ### The barrier -/

/-- The worker is past the barrier. -/
def WorkerPc.passed : WorkerPc → Bool
  | .connecting _ | .subscribed | .running => true
  | _ => false

/-- The workers that have entered the barrier. -/
def Startup.inBarrier (s : Startup) : Finset ThreadId :=
  Finset.univ.filter fun j => (s.pc j).entered = true

/-- The barrier counts the workers that have entered it, and lets nobody pass before all
have. -/
structure BarrierInv (s : Startup) : Prop where
  count_le : s.count_ ≤ s.inBarrier.card
  full_of_passed : ∀ j, (s.pc j).passed = true → numThreads ≤ s.count_

/-- A worker that had entered stays among those that have. -/
theorem inBarrier_subset_update {s s' : Startup} {i : ThreadId} {p : WorkerPc}
    (hpc : s'.pc = Function.update s.pc i p) (hp : (s.pc i).entered = true → p.entered = true) :
    s.inBarrier ⊆ s'.inBarrier := by
  intro j hj
  simp only [Startup.inBarrier, Finset.mem_filter, Finset.mem_univ, true_and] at hj ⊢
  rw [hpc]
  by_cases hji : j = i
  · subst hji
    rw [Function.update_self]
    exact hp hj
  · rw [Function.update_of_ne hji]
    exact hj

/-- A worker that enters is counted once. -/
theorem card_inBarrier_enter {s s' : Startup} {i : ThreadId} {p : WorkerPc}
    (hpc : s'.pc = Function.update s.pc i p) (hi : (s.pc i).entered = false)
    (hp : p.entered = true) : s.inBarrier.card + 1 ≤ s'.inBarrier.card := by
  have hnot : i ∉ s.inBarrier := by simp [Startup.inBarrier, hi]
  rw [← Finset.card_insert_of_notMem hnot]
  refine Finset.card_le_card (Finset.insert_subset ?_ (inBarrier_subset_update hpc fun _ => hp))
  simp [Startup.inBarrier, hpc, hp]

/-- Nobody else passes when worker `i` moves to `p`. -/
theorem BarrierInv.full_of_passed_update {s s' : Startup} {i : ThreadId} {p : WorkerPc}
    (hs : BarrierInv s) (hpc : s'.pc = Function.update s.pc i p) (hmono : s.count_ ≤ s'.count_)
    (hp : p.passed = true → numThreads ≤ s'.count_) :
    ∀ j, (s'.pc j).passed = true → numThreads ≤ s'.count_ := by
  rw [hpc]
  exact (Function.forall_update_iff s.pc fun _ p => p.passed = true → numThreads ≤ s'.count_).mpr
    ⟨hp, fun j _ hj => (hs.full_of_passed j hj).trans hmono⟩

/-- A step of worker `i` before or after its entry. -/
theorem BarrierInv.move {s s' : Startup} {i : ThreadId} {p : WorkerPc} (hs : BarrierInv s)
    (hpc : s'.pc = Function.update s.pc i p) (hcount : s'.count_ = s.count_)
    (hmono : (s.pc i).entered = true → p.entered = true)
    (hp : p.passed = true → numThreads ≤ s.count_) : BarrierInv s' := by
  refine ⟨?_, hs.full_of_passed_update hpc hcount.ge (hcount ▸ hp)⟩
  rw [hcount]
  exact hs.count_le.trans (Finset.card_le_card (inBarrier_subset_update hpc hmono))

/-- A step of a worker that is past the barrier. -/
theorem BarrierInv.move_passed {s s' : Startup} {i : ThreadId} {p : WorkerPc}
    (hs : BarrierInv s) (hpc : s'.pc = Function.update s.pc i p)
    (hcount : s'.count_ = s.count_) (hp : p.entered = true) (hi : (s.pc i).passed = true) :
    BarrierInv s' :=
  hs.move hpc hcount (fun _ => hp) fun _ => hs.full_of_passed i hi

/-- The entry of worker `i`. -/
theorem BarrierInv.enter {s s' : Startup} {i : ThreadId} {p : WorkerPc} (hs : BarrierInv s)
    (hpc : s'.pc = Function.update s.pc i p) (hcount : s'.count_ = s.count_ + 1)
    (hi : (s.pc i).entered = false) (hentered : p.entered = true)
    (hp : p.passed = true → numThreads ≤ s.count_ + 1) : BarrierInv s' := by
  refine ⟨?_, hs.full_of_passed_update hpc (by omega) (hcount ▸ hp)⟩
  have hcard := card_inBarrier_enter hpc hi hentered
  have hle := hs.count_le
  omega

/-- **A step keeps the barrier's invariant**. -/
theorem barrierInv_step {s s' : Startup} {a : StartupAction} (hs : BarrierInv s)
    (h : startup.step s a = some s') : BarrierInv s' := by
  rcases startup_step_cases h with ⟨i, hmove⟩ | ⟨hpc, hcount, -, -⟩
  · cases hmove with
    | bind hi =>
        exact hs.move rfl rfl (by simp [hi, WorkerPc.entered]) (by simp [WorkerPc.passed])
    | enterLast hi hfull =>
        exact hs.enter rfl rfl (by simp [hi, WorkerPc.entered]) rfl fun _ => hfull
    | enter hi hnot =>
        exact hs.enter rfl rfl (by simp [hi, WorkerPc.entered]) rfl (by simp [WorkerPc.passed])
    | wake hi hfull => exact hs.move rfl rfl (fun _ => rfl) fun _ => hfull
    | skip hi => exact hs.move_passed rfl rfl rfl (by simp [hi, WorkerPc.passed])
    | connect j hi hne => exact hs.move_passed rfl rfl rfl (by simp [hi, WorkerPc.passed])
    | subscribe n hi hn => exact hs.move_passed rfl rfl rfl (by simp [hi, WorkerPc.passed])
    | run hi => exact hs.move_passed rfl rfl rfl (by simp [hi, WorkerPc.passed])
  · refine ⟨?_, ?_⟩
    · simpa [Startup.inBarrier, hpc, hcount] using hs.count_le
    · rw [hpc, hcount]
      exact hs.full_of_passed

/-- **What the barrier guarantees**: when a worker is past it, every worker has bound its
publisher and entered. -/
theorem bound_of_connecting {s : Startup} (h : startup.Reachable s) {i : ThreadId}
    (hi : (s.pc i).passed = true) (j : ThreadId) : (s.pc j).entered = true := by
  have hinv : BarrierInv s := Machine.Reachable.invariant
    (I := BarrierInv) ⟨Nat.zero_le _, by simp [startup, WorkerPc.passed]⟩
    (fun _ _ _ _ hs h => barrierInv_step hs h) h
  have hcard : Fintype.card ThreadId ≤ s.inBarrier.card := by
    rw [Fintype.card_fin]
    exact (hinv.full_of_passed i hi).trans hinv.count_le
  have hall : s.inBarrier = Finset.univ :=
    (Finset.card_eq_iff_eq_univ _).mp (le_antisymm (Finset.card_le_univ _) hcard)
  have hj : j ∈ s.inBarrier := hall ▸ Finset.mem_univ j
  simpa [Startup.inBarrier] using hj

/-! ### Connections and subscriptions -/

/-- The worker's loop of `subscriber.connect` has passed `i`. -/
def WorkerPc.pastConnect (i : ThreadId) : WorkerPc → Prop
  | .connecting n => i < n
  | .subscribed | .running => True
  | _ => False

/-- The worker is past `subscriber.setsockopt(ZMQ_SUBSCRIBE, ..)`. -/
def WorkerPc.pastSubscribe : WorkerPc → Bool
  | .subscribed | .running => true
  | _ => false

/-- The loop of a worker that has subscribed has passed every publisher. -/
theorem WorkerPc.pastConnect_of_pastSubscribe {p : WorkerPc} (hp : p.pastSubscribe = true)
    (i : ThreadId) : p.pastConnect i := by
  cases p with
  | subscribed => trivial
  | running => trivial
  | _ => cases hp

/-- A worker has the subscription exactly if it is past the call that sets it, and is connected
to every other publisher that its loop has passed. -/
structure SocketInv (s : Startup) : Prop where
  subscribed_iff : ∀ j, s.subscribed j = true ↔ (s.pc j).pastSubscribe = true
  connected : ∀ j i, i ≠ j → (s.pc j).pastConnect i → s.connected j i = true

/-- A step of worker `i` other than its subscription. -/
theorem SocketInv.move {s s' : Startup} {i : ThreadId} {p : WorkerPc} (hs : SocketInv s)
    (hpc : s'.pc = Function.update s.pc i p) (hsub : s'.subscribed = s.subscribed)
    (hp : p.pastSubscribe = (s.pc i).pastSubscribe)
    (hconn : ∀ j k, s.connected j k = true → s'.connected j k = true)
    (hnew : ∀ k, k ≠ i → p.pastConnect k →
      (s.pc i).pastConnect k ∨ s'.connected i k = true) : SocketInv s' := by
  refine ⟨fun j => ?_, fun j k hkj hpast => ?_⟩
  · rw [hsub, hpc, hs.subscribed_iff]
    by_cases hji : j = i
    · rw [hji, Function.update_self, hp]
    · rw [Function.update_of_ne hji]
  · rw [hpc] at hpast
    by_cases hji : j = i
    · subst hji
      rw [Function.update_self] at hpast
      rcases hnew k hkj hpast with hold | hnow
      · exact hconn j k (hs.connected j k hkj hold)
      · exact hnow
    · rw [Function.update_of_ne hji] at hpast
      exact hconn j k (hs.connected j k hkj hpast)

/-- **A step keeps the invariant** of the sockets. -/
theorem socketInv_step {s s' : Startup} {a : StartupAction} (hs : SocketInv s)
    (h : startup.step s a = some s') : SocketInv s' := by
  rcases startup_step_cases h with ⟨i, hmove⟩ | ⟨hpc, -, hconn, hsub⟩
  · cases hmove with
    | bind hi =>
        exact hs.move rfl rfl (by rw [hi]; rfl) (fun _ _ => id) fun _ _ h => h.elim
    | enterLast hi hfull =>
        refine hs.move rfl rfl (by rw [hi]; rfl) (fun _ _ => id) fun k _ h => ?_
        exact absurd h (Nat.not_lt_zero _)
    | enter hi hnot =>
        exact hs.move rfl rfl (by rw [hi]; rfl) (fun _ _ => id) fun _ _ h => h.elim
    | wake hi hfull =>
        refine hs.move rfl rfl (by rw [hi]; rfl) (fun _ _ => id) fun k _ h => ?_
        exact absurd h (Nat.not_lt_zero _)
    | skip hi =>
        -- The loop skips the worker's own publisher.
        refine hs.move rfl rfl (by rw [hi]; rfl) (fun _ _ => id) fun k hk h => Or.inl ?_
        have hk' : (k : ℕ) ≠ i := fun heq => hk (Fin.ext heq)
        rw [hi]
        simp only [WorkerPc.pastConnect] at h ⊢
        omega
    | connect j hi hne =>
        refine hs.move rfl rfl (by rw [hi]; rfl) (fun j' k hjk => ?_) fun k hk h => ?_
        · by_cases hj' : j' = i
          · subst hj'
            by_cases hkj : k = j
            · simp [hkj]
            · simpa [hkj] using hjk
          · simpa [Function.update_of_ne hj'] using hjk
        · by_cases hkj : k = j
          · exact Or.inr (by simp [hkj])
          · have hkj' : (k : ℕ) ≠ j := fun heq => hkj (Fin.ext heq)
            rw [hi]
            simp only [WorkerPc.pastConnect] at h ⊢
            exact Or.inl (by omega)
    | subscribe n hi hn =>
        refine ⟨fun j => ?_, fun j k hkj hpast => ?_⟩
        · by_cases hji : j = i
          · simp [hji, WorkerPc.pastSubscribe]
          · simpa [Function.update_of_ne hji] using hs.subscribed_iff j
        · by_cases hji : j = i
          · subst hji
            refine hs.connected j k hkj ?_
            rw [hi]
            exact lt_of_lt_of_le k.isLt hn
          · refine hs.connected j k hkj ?_
            simpa only [Function.update_of_ne hji] using hpast
    | run hi =>
        refine hs.move rfl rfl (by rw [hi]; rfl) (fun _ _ => id) fun k _ _ => Or.inl ?_
        rw [hi]
        trivial
  · refine ⟨?_, ?_⟩
    · rw [hsub, hpc]
      exact hs.subscribed_iff
    · rw [hconn, hpc]
      exact hs.connected

/-- It holds in every state of every run. -/
theorem socketInv_of_reachable {s : Startup} (h : startup.Reachable s) : SocketInv s :=
  Machine.Reachable.invariant (I := SocketInv)
    ⟨fun j => by simp [startup, WorkerPc.pastSubscribe],
      fun j i _ hp => by simp [startup, WorkerPc.pastConnect] at hp⟩
    (fun _ _ _ _ hs h => socketInv_step hs h) h

/-- Every other worker has connected to the publisher of `i` and subscribed. -/
def ReachesAll (s : Startup) (i : ThreadId) : Prop :=
  ∀ j, j ≠ i → s.connected j i = true ∧ s.subscribed j = true

/-- **When a publication reaches everyone**: exactly if every other worker is past the call that
sets its subscription. -/
theorem reachesAll_iff {s : Startup} (hs : SocketInv s) {i : ThreadId} :
    ReachesAll s i ↔ ∀ j, j ≠ i → (s.pc j).pastSubscribe = true := by
  constructor
  · intro h j hji
    exact (hs.subscribed_iff j).mp (h j hji).2
  · intro h j hji
    exact ⟨hs.connected j i (Ne.symm hji) (WorkerPc.pastConnect_of_pastSubscribe (h j hji) i),
      (hs.subscribed_iff j).mpr (h j hji)⟩

/-! ### Runs -/

/-- The request makes worker `i` publish. -/
def Publishes (s : Startup) (i : ThreadId) (request : Request) : Prop :=
  ∃ response state db,
    processRequest request (s.cluster.threads i) = .ok (response, state, some db)

/-- A worker publishes if the evaluation of the request says so. -/
theorem publishes_of_isSome {s : Startup} {i : ThreadId} {request : Request}
    (h : ((processRequest request (s.cluster.threads i)).toOption.bind fun r => r.2.2).isSome) :
    Publishes s i request := by
  cases hproc : processRequest request (s.cluster.threads i) with
  | error e => simp [hproc, Except.toOption] at h
  | ok r =>
      obtain ⟨response, state, published⟩ := r
      simp only [hproc, Except.toOption, Option.bind_some] at h
      obtain ⟨db, rfl⟩ := Option.isSome_iff_exists.mp h
      exact ⟨response, state, db, hproc⟩

/-- PUTs with at least one pair are processed only when every other worker is past the call that
sets its subscription. -/
def Quiet (s : Startup) (a : StartupAction) : Prop :=
  ∀ i request, a = .request i request → acceptedEntries request ≠ [] →
    ∀ j, j ≠ i → (s.pc j).pastSubscribe = true

instance (s : Startup) : (a : StartupAction) → Decidable (Quiet s a)
  | .request i request =>
      if h : (acceptedEntries request).isEmpty = false →
          ∀ j, j ≠ i → (s.pc j).pastSubscribe = true then
        isTrue fun _ _ heq hput => by
          cases heq
          exact h (by simpa using hput)
      else
        isFalse fun hquiet => h fun hput => hquiet i request rfl (by simpa using hput)
  | .next _ => isTrue fun _ _ heq => by cases heq
  | .deliver _ => isTrue fun _ _ heq => by cases heq

/-- A publication that reaches everyone is dropped for no one. -/
theorem filter_reaches_publish {s : Startup} {i : ThreadId} (h : ReachesAll s i)
    (published : Option Database) :
    (publish i published).filter s.reaches = publish i published ∧
      (publish i published).filter (fun g => !s.reaches g) = [] := by
  have hall : ∀ g ∈ publish i published, s.reaches g = true := by
    intro g hg
    cases published with
    | none => cases hg
    | some db =>
        obtain ⟨j, hj, rfl⟩ := List.mem_map.mp hg
        have hreach := h j (mem_others.mp hj)
        simp [Startup.reaches, hreach]
  refine ⟨List.filter_eq_self.mpr hall, List.filter_eq_nil_iff.mpr fun g hg => ?_⟩
  simp [hall g hg]

/-- A step of a quiet run drops nothing, and is a step of the cluster or none. -/
theorem quiet_step {s s' : Startup} {a : StartupAction} (hsock : SocketInv s)
    (hset : ∀ i, (s.cluster.threads i).Settled) (hquiet : Quiet s a)
    (h : startup.step s a = some s') :
    s'.dropped = s.dropped ∧
      (s'.cluster = s.cluster ∨ ∃ b, cluster.step s.cluster b = some s'.cluster) := by
  cases a with
  | next i =>
      cases Startup.next_move h <;> exact ⟨rfl, Or.inl rfl⟩
  | request i request =>
      obtain ⟨-, response, state, published, hproc, rfl⟩ := Startup.request_eq_some h
      have hfilter : (publish i published).filter s.reaches = publish i published ∧
          (publish i published).filter (fun g => !s.reaches g) = [] := by
        rcases (processRequest_ok (hset i) hproc).2.2.2 with ⟨-, rfl⟩ | ⟨hput, -⟩
        · exact ⟨rfl, rfl⟩
        · exact filter_reaches_publish
            ((reachesAll_iff hsock).mpr (hquiet i request rfl hput)) published
      refine ⟨by simp [hfilter.2], Or.inr ⟨.request i request, ?_⟩⟩
      rw [cluster_step_request hproc, hfilter.1]
  | deliver n =>
      obtain ⟨g, hg, rfl⟩ := Startup.deliver_eq_some h
      exact ⟨rfl, Or.inr ⟨.deliver n, cluster_step_deliver hg⟩⟩

/-- **Quiet runs lose nothing**, and what they do to the cluster is a run of the
cluster. -/
theorem quiet_run {s : Startup} (h : startup.ReachableBy Quiet s) :
    s.dropped = [] ∧ cluster.Reachable s.cluster := by
  refine Machine.ReachableBy.invariant
    (I := fun s => s.dropped = [] ∧ cluster.Reachable s.cluster)
    ⟨rfl, Machine.Reachable.init⟩ (fun s a s' hr hs hquiet hstep => ?_) h
  obtain ⟨hdrop, hcluster⟩ := quiet_step (socketInv_of_reachable hr.reachable)
    (settled_of_reachable hs.2) hquiet hstep
  refine ⟨hdrop.trans hs.1, ?_⟩
  rcases hcluster with heq | ⟨b, hb⟩
  · exact heq ▸ hs.2
  · exact hs.2.step hb

/-- **Gossip at start-up.** In every run, all publishers are bound when a worker connects, and
a worker that publishes reaches all others exactly if each of them is past the call that sets
its subscription. In the runs that process every PUT with at least one pair only then, every
publication reaches everyone, nothing is dropped, and the cluster is in a state it can reach
with all subscriptions in place. -/
theorem startup_publish_reaches_all {s : Startup} (h : startup.Reachable s) :
    (∀ i, (s.pc i).passed = true → ∀ j, (s.pc j).entered = true) ∧
    (∀ i request, s.pc i = .running → Publishes s i request →
      (ReachesAll s i ↔ ∀ j, j ≠ i → (s.pc j).pastSubscribe = true)) ∧
    (startup.ReachableBy Quiet s →
      s.dropped = [] ∧ cluster.Reachable s.cluster ∧
      ∀ i request, s.pc i = .running → Quiet s (.request i request) →
        Publishes s i request → ReachesAll s i) := by
  have hsock := socketInv_of_reachable h
  refine ⟨fun i hi j => bound_of_connecting h hi j, fun i request _ _ => reachesAll_iff hsock,
    fun hquiet => ?_⟩
  obtain ⟨hdrop, hcluster⟩ := quiet_run hquiet
  refine ⟨hdrop, hcluster, fun i request _ hq hpub => ?_⟩
  obtain ⟨response, state, db, hproc⟩ := hpub
  rcases (processRequest_ok (settled_of_reachable hcluster i) hproc).2.2.2 with
    ⟨-, hnone⟩ | ⟨hput, -⟩
  · cases hnone
  · exact (reachesAll_iff hsock).mpr (hq i request rfl hput)

/-- All workers bind and enter the barrier, and worker `0` goes on until it runs its
driver. -/
def zeroRuns : List StartupAction :=
  (List.finRange numThreads).map .next ++ (List.finRange numThreads).map .next ++
    List.replicate 7 (.next 0)

/-- All workers bind and enter the barrier; workers `1`, `2` and `3` go on until they have
subscribed, and worker `0` does so after them, runs its driver and processes a PUT. -/
def zeroRunsLast : List StartupAction :=
  (List.finRange numThreads).map .next ++ (List.finRange numThreads).map .next ++
    List.replicate 6 (.next 1) ++ List.replicate 6 (.next 2) ++ List.replicate 5 (.next 3) ++
    List.replicate 7 (.next 0) ++ [.request 0 (.put 7 [⟨[1], [2]⟩])]

/-- In the run `zeroRuns` worker `0` can publish and reaches no one. In `zeroRunsLast` what it
publishes is on its way to the three others, none of which runs its driver yet. -/
theorem startup_publish_reaches_all_zero_runs :
    (∃ s, startup.run startup.init zeroRuns = some s ∧ s.pc 0 = .running ∧
      Publishes s 0 (.put 7 [⟨[1], [2]⟩]) ∧ ¬ ReachesAll s 0) ∧
    ∃ s, startup.runBy Quiet startup.init zeroRunsLast = some s ∧
      s.pc 1 = .subscribed ∧ s.pc 2 = .subscribed ∧ s.pc 3 = .subscribed ∧
      s.cluster.inFlight.length = 3 ∧ s.dropped = [] ∧ cluster.Reachable s.cluster := by
  constructor
  · have hpc : (startup.run startup.init zeroRuns).map
        (fun s => (s.pc 0, s.pc 1, ((processRequest (.put 7 [⟨[1], [2]⟩])
          (s.cluster.threads 0)).toOption.bind fun r => r.2.2).isSome)) =
        some (.running, .waiting, true) := by decide
    obtain ⟨s, hs, heq⟩ := Option.map_eq_some_iff.mp hpc
    simp only [Prod.mk.injEq] at heq
    obtain ⟨h0, h1, hput⟩ := heq
    have hpub : Publishes s 0 (.put 7 [⟨[1], [2]⟩]) := publishes_of_isSome hput
    refine ⟨s, hs, h0, hpub, fun hall => ?_⟩
    have hpast := ((startup_publish_reaches_all (Machine.reachable_of_run hs)).2.1 0 _ h0 hpub).mp
      hall 1 (by decide)
    rw [h1] at hpast
    cases hpast
  · have hrun : (startup.runBy Quiet startup.init zeroRunsLast).map
        (fun s => (s.pc 1, s.pc 2, s.pc 3, s.cluster.inFlight.length)) =
        some (.subscribed, .subscribed, .subscribed, 3) := by decide
    obtain ⟨s, hs, heq⟩ := Option.map_eq_some_iff.mp hrun
    simp only [Prod.mk.injEq] at heq
    obtain ⟨h1, h2, h3, hflight⟩ := heq
    have hquiet : startup.ReachableBy Quiet s := Machine.ReachableBy.init.runBy hs
    obtain ⟨hdrop, hcluster, -⟩ := (startup_publish_reaches_all hquiet.reachable).2.2 hquiet
    exact ⟨s, hs, h1, h2, h3, hflight, hdrop, hcluster⟩

/-- A PUT that worker `0` processes after the run `zeroRuns` is dropped for all others, so
that worker `1` never hears of it: nothing is in flight and its database stays empty. -/
theorem early_put_is_lost :
    (startup.run startup.init (zeroRuns ++ [.request 0 (.put 7 [⟨[1], [2]⟩])])).map
      (fun s => (s.dropped.map Gossip.dst, s.cluster.inFlight.length,
        (s.cluster.threads 0).kvs == (s.cluster.threads 1).kvs)) =
      some ([1, 2, 3], 0, false) := by
  decide

end LatticeFlow
