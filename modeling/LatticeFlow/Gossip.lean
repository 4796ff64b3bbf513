import Mathlib.Data.Fintype.Basic
import LatticeFlow.Server

/-!
# The Key-Value Server: Gossip Between the Threads

The four server threads of `key_value_stores/server.cc` after they have all subscribed to
each other. A step of the cluster is a request processed by one thread, or the delivery
of one gossip message to the thread it is on its way to. A published message is in flight
once for each other thread; the messages in flight are delivered in any order.

The cluster keeps a log of the entries that its threads have accepted in PUTs. It is a
ghost: no thread reads it.

The cluster refines the abstract protocol of `LatticeFlow.Lib.Replication`: reading every
database as a family of entries, a PUT is an update that publishes the changed keys of the
new database, and a delivery is a delivery (`Cluster.denote`, `simulates`).

## Main results

* `settled_of_reachable`: between requests no thread has changes left to gossip.
* `replicas_reachable`: the refinement.
* `cluster_converges`: nothing accepted is lost, and with nothing in flight all databases
  are equal to the join of everything accepted.
-/

namespace LatticeFlow

/-- A gossip message in flight. -/
structure Gossip where
  src : ThreadId
  dst : ThreadId
  db : Database

/-- The threads, the gossip in flight, and the log of the accepted entries. -/
structure Cluster where
  threads : ThreadId → State
  inFlight : List Gossip
  accepted : List (ThreadId × Bytes × TimestampedStringLattice)

/-- A step of the cluster: thread `i` processes a request, or the message at position `n`
is delivered. -/
inductive ClusterAction
  | request (i : ThreadId) (request : Request)
  | deliver (n : ℕ)

/-- The threads that subscribe to thread `i`: all but itself. -/
def others (i : ThreadId) : List ThreadId :=
  (List.finRange numThreads).filter (· ≠ i)

/-- The messages that a publication of thread `i` puts in flight. -/
def publish (i : ThreadId) : Option Database → List Gossip
  | none => []
  | some db => (others i).map fun j => ⟨i, j, db⟩

namespace Cluster

/-- Thread `i` processes a request; `none` if an exception ends the server. -/
def request (c : Cluster) (i : ThreadId) (request : Request) : Option (Response × Cluster) :=
  match processRequest request (c.threads i) with
  | .error _ => none
  | .ok (response, state, published) =>
      some (response,
        { threads := Function.update c.threads i state
          inFlight := c.inFlight ++ publish i published
          accepted := c.accepted ++ (acceptedEntries request).map fun e => (i, e) })

/-- The message `g` at position `n` is received. -/
def deliver (c : Cluster) (n : ℕ) (g : Gossip) : Cluster where
  threads := Function.update c.threads g.dst
    { c.threads g.dst with kvs := receiveGossip (c.threads g.dst).kvs g.db }
  inFlight := c.inFlight.eraseIdx n
  accepted := c.accepted

/-- The databases in flight from thread `i` to thread `j`. -/
def between (c : Cluster) (i j : ThreadId) : List Database :=
  (c.inFlight.filter fun g => g.src = i ∧ g.dst = j).map Gossip.db

end Cluster

/-- The machine of the four threads. -/
def cluster : Machine Cluster ClusterAction where
  init := ⟨fun i => { thread_id := i }, [], []⟩
  step c
    | .request i request => (c.request i request).map Prod.snd
    | .deliver n => (c.inFlight[n]?).map (c.deliver n)

/-- The `MapLattice` join of a list of entries. -/
def joinOfEntries (entries : List (Bytes × TimestampedStringLattice)) : Database :=
  entries.foldl (fun db e => Lattice.join db (MapLattice.empty.put e.1 e.2)) MapLattice.empty

/-! ### Settled threads -/

/-- The others are all but the thread itself. -/
theorem mem_others {i j : ThreadId} : j ∈ others i ↔ j ≠ i := by
  simp [others]

/-- What a step of the cluster does. -/
theorem Cluster.request_eq_some {c c' : Cluster} {i : ThreadId} {request : Request}
    {response : Response} (h : c.request i request = some (response, c')) :
    ∃ state published, processRequest request (c.threads i) = .ok (response, state, published) ∧
      c' = { threads := Function.update c.threads i state
             inFlight := c.inFlight ++ publish i published
             accepted := c.accepted ++ (acceptedEntries request).map fun e => (i, e) } := by
  simp only [Cluster.request] at h
  split at h
  · cases h
  · rename_i hreq
    cases h
    exact ⟨_, _, hreq, rfl⟩

/-- A request that a thread can process is a step of the cluster. -/
theorem cluster_step_request {c : Cluster} {i : ThreadId} {request : Request}
    {response : Response} {state : State} {published : Option Database}
    (h : processRequest request (c.threads i) = .ok (response, state, published)) :
    cluster.step c (.request i request) =
      some { threads := Function.update c.threads i state
             inFlight := c.inFlight ++ publish i published
             accepted := c.accepted ++ (acceptedEntries request).map fun e => (i, e) } := by
  simp only [cluster, Cluster.request, h, Option.map_some]

/-- A message in flight can be delivered. -/
theorem cluster_step_deliver {c : Cluster} {n : ℕ} {g : Gossip} (h : c.inFlight[n]? = some g) :
    cluster.step c (.deliver n) = some (c.deliver n g) := by
  simp only [cluster, h, Option.map_some]

/-- **Between requests every thread is settled.** -/
theorem settled_of_reachable {c : Cluster} (h : cluster.Reachable c) (i : ThreadId) :
    (c.threads i).Settled := by
  revert i
  refine Machine.Reachable.invariant (I := fun c => ∀ i, (c.threads i).Settled)
    (fun i => ⟨rfl, rfl⟩) (fun c a c' _ hc hs => ?_) h
  cases a with
  | request i request =>
      obtain ⟨⟨response, c₁⟩, hreq, rfl⟩ := Option.map_eq_some_iff.mp hs
      obtain ⟨state, published, hproc, rfl⟩ := Cluster.request_eq_some hreq
      exact (Function.forall_update_iff c.threads fun _ s => State.Settled s).mpr
        ⟨(processRequest_ok (hc i) hproc).1, fun j _ => hc j⟩
  | deliver n =>
      obtain ⟨g, -, rfl⟩ := Option.map_eq_some_iff.mp hs
      exact (Function.forall_update_iff c.threads fun _ s => State.Settled s).mpr
        ⟨⟨(hc g.dst).update_counter, (hc g.dst).change_set⟩, fun j _ => hc j⟩

/-! ### Refinement of the abstract protocol -/

/-- A database read as a family of entries. -/
abbrev Entries := Bytes → OptionClass TimestampedStringLattice

/-- The cluster read as replicas: databases as families of entries, accepted entries as
one-entry databases. -/
def Cluster.denote (c : Cluster) : Replicas ThreadId Entries where
  val i := (c.threads i).kvs.denote
  inFlight := c.inFlight.map fun g => ⟨g.src, g.dst, g.db.denote⟩
  log := c.accepted.map fun e => (e.1, (MapLattice.empty.put e.2.1 e.2.2).denote)

/-- The readings of the databases after a change of one thread. -/
theorem Cluster.denote_update (c : Cluster) (i : ThreadId) (state : State) :
    (fun j => (Function.update c.threads i state j).kvs.denote) =
      Function.update (fun j => (c.threads j).kvs.denote) i state.kvs.denote :=
  funext fun j => Function.apply_update (fun _ s => State.kvs s |>.denote) c.threads i state j

/-- The readings of accepted entries. -/
def deltas (request : Request) : List Entries :=
  (acceptedEntries request).map fun e => (MapLattice.empty.put e.1 e.2).denote

/-- The published database lies between the accepted entries and the new database. -/
theorem deltas_le_of_published {request : Request} {kvs g : Database}
    (hle : joinAll (deltas request) ≤ kvs.denote)
    (hg : ∀ k, g.denote k =
      if k ∈ (acceptedEntries request).map Prod.fst then kvs.denote k else ⊥) :
    joinAll (deltas request) ≤ g.denote ∧ g.denote ≤ kvs.denote := by
  constructor
  · refine joinAll_le.mpr fun δ hδ k => ?_
    have hδk : δ k ≤ kvs.denote k := (le_joinAll hδ).trans hle k
    obtain ⟨e, he, rfl⟩ := List.mem_map.mp hδ
    rw [hg k]
    split_ifs with hk
    · exact hδk
    · have hne : k ≠ e.1 := fun heq => hk (heq ▸ List.mem_map_of_mem he)
      dsimp only
      rw [denote_single, if_neg hne]
  · intro k
    rw [hg k]
    split_ifs
    · exact le_rfl
    · exact bot_le

/-- **The simulation.** A request that stores entries is an update of the abstract
protocol, any other request is none, and a delivery is a delivery. -/
theorem simulates {c c' : Cluster} {a : ClusterAction} (hset : ∀ i, (c.threads i).Settled)
    (hs : cluster.step c a = some c') :
    c'.denote = c.denote ∨
      ∃ b, (Replicas.protocol others).step c.denote b = some c'.denote := by
  cases a with
  | request i request =>
      obtain ⟨⟨response, c₁⟩, hreq, rfl⟩ := Option.map_eq_some_iff.mp hs
      obtain ⟨state, published, hproc, rfl⟩ := Cluster.request_eq_some hreq
      obtain ⟨-, hkvs, -, hpub⟩ := processRequest_ok (hset i) hproc
      have hden : state.kvs.denote = (c.threads i).kvs.denote ⊔ joinAll (deltas request) := by
        rw [hkvs, denote_putAll]
        rfl
      have hval := c.denote_update i state
      rw [hden] at hval
      rcases hpub with ⟨hnone, rfl⟩ | ⟨-, g, rfl, hg⟩
      · left
        have hdel : joinAll (deltas request) = ⊥ := by rw [deltas, hnone]; rfl
        simp only [Cluster.denote, publish, hval, hdel, hnone, List.append_nil, List.map_nil,
          sup_bot_eq, Function.update_eq_self]
      · right
        have hle := deltas_le_of_published (hden ▸ le_sup_right) hg
        refine ⟨.update i (deltas request) g.denote, ?_⟩
        simp only [Replicas.protocol]
        rw [if_pos ⟨hle.1, hden ▸ hle.2⟩]
        simp only [Replicas.update, Cluster.denote, publish, hval, List.map_append,
          List.map_map, deltas, Function.comp_def]
  | deliver n =>
      obtain ⟨g, hget, rfl⟩ := Option.map_eq_some_iff.mp hs
      right
      refine ⟨.deliver n, ?_⟩
      have hval := c.denote_update g.dst
        { c.threads g.dst with kvs := receiveGossip (c.threads g.dst).kvs g.db }
      simp only [receiveGossip, MapLattice.denote_join] at hval
      simp only [Replicas.protocol, Cluster.denote, List.getElem?_map, hget, Option.map_some,
        Replicas.deliver, Cluster.deliver, List.eraseIdx_map, receiveGossip, hval]

/-- Every reachable cluster reads as a reachable state of the abstract protocol. -/
theorem replicas_reachable {c : Cluster} (h : cluster.Reachable c) :
    (Replicas.protocol (A := Entries) others).Reachable c.denote := by
  obtain ⟨t, ht, rfl⟩ := Machine.Reachable.simulate (N := Replicas.protocol others)
    (R := fun c t => c.denote = t) rfl (fun c t a c' hc hR hs => by
      subst hR
      rcases simulates (settled_of_reachable hc) hs with heq | ⟨b, hb⟩
      · exact Or.inl heq
      · exact Or.inr ⟨b, _, hb, rfl⟩) h
  exact ht

/-! ### Convergence -/

/-- The join over a family, read at one index. -/
theorem joinAll_apply (l : List Entries) (k : Bytes) :
    joinAll l k = joinAll (l.map fun f => f k) := by
  induction l with
  | nil => rfl
  | cons f l ih => rw [joinAll_cons, Pi.sup_apply, ih, List.map_cons, joinAll_cons]

/-- Joining optional entries one after another, read as classes. -/
theorem toClass_foldl_joinEntry (x : Option TimestampedStringLattice)
    (ys : List (Option TimestampedStringLattice)) :
    toClass (ys.foldl joinEntry x) = toClass x ⊔ joinAll (ys.map toClass) :=
  read_foldl toClass_joinEntry x ys

/-- An entry below an optional entry is below an entry. -/
theorem exists_le_of_toClass_le {e : TimestampedStringLattice}
    {y : Option TimestampedStringLattice} (h : toClass (some e) ≤ toClass y) :
    ∃ e', y = some e' ∧ Lattice.le e e' = true := by
  cases y with
  | none => exact absurd (le_bot_iff.mp h) WithBot.coe_ne_bot
  | some e' => exact ⟨e', rfl, Lattice.cls_le_iff.mp (WithBot.coe_le_coe.mp h)⟩

/-- The join of some entries denotes the join of what each of them denotes. -/
theorem denote_joinOfEntries (entries : List (Bytes × TimestampedStringLattice)) :
    (joinOfEntries entries).denote =
      joinAll (entries.map fun e => (MapLattice.empty.put e.1 e.2).denote) := by
  have hfold := read_foldl
    (fun db (e : Bytes × TimestampedStringLattice) =>
      MapLattice.denote_join db (MapLattice.empty.put e.1 e.2)) MapLattice.empty entries
  rw [MapLattice.denote_empty, bot_sup_eq] at hfold
  exact hfold

/-- The packets between two replicas are the readings of the databases in flight. -/
theorem between_denote (c : Cluster) (i j : ThreadId) :
    c.denote.between i j = (c.between i j).map MapLattice.denote := by
  simp only [Replicas.between, Cluster.denote, Cluster.between, List.filter_map, List.map_map]
  rfl

/-- **Gossip convergence.** In every reachable state: an entry accepted at thread `i` is
below what thread `j` holds for the key joined with what the messages in flight from `i`
to `j` hold for it; with nothing in flight all databases are equal, and equal to the join
of all accepted entries in whatever order and multiplicity these are listed; and no
request looks up an absent key. -/
theorem cluster_converges {c : Cluster} (h : cluster.Reachable c) :
    (∀ i j k e, (i, k, e) ∈ c.accepted → ∃ e',
      ((c.between i j).map (MapLattice.get? · k)).foldl joinEntry
        ((c.threads j).kvs.get? k) = some e' ∧ Lattice.le e e' = true) ∧
    (c.inFlight = [] →
      (∀ i j, ((c.threads i).kvs == (c.threads j).kvs) = true) ∧
      ∀ j entries, (∀ e, e ∈ entries ↔ e ∈ c.accepted.map Prod.snd) →
        ((c.threads j).kvs == joinOfEntries entries) = true) ∧
    ∀ i request, processRequest request (c.threads i) ≠ .error .mapAt := by
  have hinv := Replicas.inv_of_reachable (fun i j => mem_others.mpr) (replicas_reachable h)
  refine ⟨fun i j k e he => ?_, fun hnone => ⟨fun i j => ?_, fun j entries hes => ?_⟩,
    fun i request => processRequest_ne_mapAt (settled_of_reachable h i)⟩
  · refine exists_le_of_toClass_le ?_
    have hlog : (i, (MapLattice.empty.put k e).denote) ∈ c.denote.log :=
      List.mem_map_of_mem (f := fun e => (e.1, (MapLattice.empty.put e.2.1 e.2.2).denote)) he
    have hcov := hinv.covered i _ hlog j k
    rw [denote_single, if_pos rfl, Pi.sup_apply, joinAll_apply, between_denote,
      List.map_map] at hcov
    rw [toClass_foldl_joinEntry, List.map_map]
    exact hcov
  · have hnone' : c.denote.inFlight = [] := by simp [Cluster.denote, hnone]
    rw [MapLattice.beq_iff_denote]
    exact (hinv.converged hnone' i).trans (hinv.converged hnone' j).symm
  · have hnone' : c.denote.inFlight = [] := by simp [Cluster.denote, hnone]
    rw [MapLattice.beq_iff_denote, denote_joinOfEntries]
    refine (hinv.converged hnone' j).trans (joinAll_eq_of_mem fun a => ?_)
    simp only [Cluster.denote, List.map_map, List.mem_map, hes, Function.comp_def,
      exists_exists_and_eq_and]

/-- A run in which two threads accept entries for one key and all six messages are
delivered. -/
def twoPuts : List ClusterAction :=
  [.request 0 (.put 7 [⟨[1], [2]⟩]), .request 2 (.put 9 [⟨[1], [3]⟩, ⟨[4], [5]⟩]),
   .deliver 5, .deliver 1, .deliver 0, .deliver 2, .deliver 1, .deliver 0]

/-- Convergence in the run `twoPuts`. -/
theorem cluster_converges_two_puts : ∃ c, cluster.run cluster.init twoPuts = some c ∧
    c.inFlight = [] ∧ c.accepted.length = 3 ∧
    ((c.threads 1).kvs == (c.threads 3).kvs) = true := by
  have hlen : (cluster.run cluster.init twoPuts).map
      (fun c => (c.inFlight.length, c.accepted.length)) = some (0, 3) := by decide
  obtain ⟨c, hc, heq⟩ := Option.map_eq_some_iff.mp hlen
  rw [Prod.mk.injEq] at heq
  have hnone : c.inFlight = [] := List.length_eq_zero_iff.mp heq.1
  exact ⟨c, hc, hnone, heq.2,
    ((cluster_converges (Machine.reachable_of_run hc)).2.1 hnone).1 1 3⟩

end LatticeFlow
