import LatticeFlow.RcClient
import LatticeFlow.ServerHistory

/-!
# Last Write Wins

This module models `RucClient` of `key_value_stores/ruc_client.cc`, whose puts go to a
server at once, and one such client alone with the four server threads: it runs one
transaction after another, each a BEGIN and a PUT of the same key, each request is processed
by whichever thread it is routed to, and all gossip is delivered before the next request.

The header comment of the client calls this last-write-wins. The threads keep the write with
the largest timestamp, and the timestamp of a transaction depends on the thread that its
BEGIN is routed to: it is ten times the number of earlier BEGINs at that thread plus the
identifier of the thread (`stamp`). A later transaction may get a smaller timestamp than an
earlier one, and then its write is answered with success and lost.

## Main results

* `SequentialInv.get_winner`: after every transaction all threads hold the write with the
  largest timestamp.
* `last_write_wins_iff`: when that is the last write.
-/

namespace LatticeFlow

/-! ### The client -/

/-- The request whose response a `RucClient` waits for. -/
inductive RucWaiting
  | begin
  | get
  | put
  deriving DecidableEq, Repr

/-- What a `RucClient` prints. -/
inductive RucPrinted
  | printed (p : Printed)
  /-- `END TRANSACTION not supported`. -/
  | endNotSupported
  deriving DecidableEq, Repr

/-- `RucClient`, with the response it waits for and what it has printed. -/
structure RucClient where
  current_timestamp_ : ℤ := -1
  waiting : Option RucWaiting := none
  printed : List RucPrinted := []

namespace RucClient

/-- A command, up to the request that it sends if it sends one. -/
def command (client : RucClient) : ClientCommand → Option Request × RucClient
  | .begin => (some .beginTransaction, { client with waiting := some .begin })
  | .get k => (some (.get k), { client with waiting := some .get })
  | .put k v =>
      if client.current_timestamp_ = -1 then
        (none, { client with printed := client.printed ++ [.printed .firstRunBegin] })
      else
        (some (.put (Int64.ofInt client.current_timestamp_) [⟨k, v⟩]),
          { client with waiting := some .put })
  | .end_ => (none, { client with printed := client.printed ++ [.endNotSupported] })

/-- The rest of a command, once its response is there. -/
def receive (client : RucClient) (response : Response) : RucClient :=
  let succeed := response.succeed.getD false
  match client.waiting with
  | none => client
  | some .begin =>
      if succeed then
        let t := narrow (response.timestamp.getD 0)
        { client with
          current_timestamp_ := t
          waiting := none
          printed := client.printed ++ [.printed (.timestamp t)] }
      else { client with waiting := none, printed := client.printed ++ [.printed .error] }
  | some .get =>
      { client with
        waiting := none
        printed := client.printed ++
          [.printed (if succeed then .value (response.value.getD []) else .error)] }
  | some .put =>
      { client with
        waiting := none
        printed := client.printed ++ if succeed then [] else [.printed .error] }

end RucClient

/-! ### One client alone -/

/-- A transaction: the threads that its BEGIN and its PUT are routed to, its value, and the
order in which the gossip is delivered after each of the two. -/
structure Transaction where
  beginThread : ThreadId
  putThread : ThreadId
  value : Bytes
  afterBegin : List ℕ
  afterPut : List ℕ
  deriving DecidableEq, Repr

/-- The client, the threads, and the transactions so far. -/
structure Sequential where
  client : RucClient
  cluster : Cluster
  done : List Transaction

/-- The client runs a command and thread `i` processes its request. -/
def RucClient.exec (client : RucClient) (c : Cluster) (i : ThreadId) (command : ClientCommand) :
    Option (RucClient × Cluster) :=
  match client.command command with
  | (none, client') => some (client', c)
  | (some request, client') =>
      (c.request i request).map fun r => (client'.receive r.1, r.2)

/-- The gossip in flight is delivered, all of it, in the given order. -/
def Cluster.deliverAll (c : Cluster) (order : List ℕ) : Option Cluster :=
  match cluster.run c (order.map .deliver) with
  | none => none
  | some c' => if c'.inFlight.isEmpty then some c' else none

/-- The machine of the client, which puts the key `k` in each of its transactions. -/
def sequential (k : Bytes) : Machine Sequential Transaction where
  init := ⟨{}, cluster.init, []⟩
  step s txn :=
    (s.client.exec s.cluster txn.beginThread .begin).bind fun r₁ =>
    (r₁.2.deliverAll txn.afterBegin).bind fun c₁ =>
    (r₁.1.exec c₁ txn.putThread (.put k txn.value)).bind fun r₂ =>
    (r₂.2.deliverAll txn.afterPut).map fun c₂ => ⟨r₂.1, c₂, s.done ++ [txn]⟩

/-- The value that thread `i` answers to a GET of `k`, if it succeeds. -/
def Cluster.answer (c : Cluster) (i : ThreadId) (k : Bytes) : Option Bytes :=
  (c.request i (.get k)).bind fun r => if r.1.succeed = some true then r.1.value else none

/-- The timestamp of a transaction after those in `past`. -/
def stamp (past : List Transaction) (txn : Transaction) : ℕ :=
  10 * past.countP (·.beginThread = txn.beginThread) + txn.beginThread

/-- The entry that a transaction after those in `past` stores. -/
def written (past : List Transaction) (txn : Transaction) : TimestampedStringLattice :=
  ⟨(⟨stamp past txn⟩, ⟨txn.value⟩)⟩

/-- The transaction `txn` of `done`, after those in `past`, has the largest timestamp. -/
def Wins (done past : List Transaction) (txn : Transaction) : Prop :=
  (∃ later, done = past ++ txn :: later) ∧
    EachAfter (fun p t => stamp p t ≤ stamp past txn) done

/-! ### The invariant -/

/-- Between transactions nothing is in flight, the local timestamps count the BEGINs, and
the accepted entries are those of the transactions. -/
structure SequentialInv (k : Bytes) (s : Sequential) : Prop where
  reachable : cluster.Reachable s.cluster
  quiet : s.cluster.inFlight = []
  thread_id : ∀ i, (s.cluster.threads i).thread_id = i
  local_timestamp : ∀ i, (s.cluster.threads i).local_timestamp =
    s.done.countP (·.beginThread = i)
  accepted : ∀ x, x ∈ s.cluster.accepted.map Prod.snd ↔
    SomeAfter (fun p t => x = (k, written p t)) s.done

section Steps

variable {c c' : Cluster}

/-- What the deliveries leave alone. -/
theorem cluster_run_deliver {order : List ℕ}
    (h : cluster.run c (order.map .deliver) = some c') :
    c'.accepted = c.accepted ∧ ∀ i, (c'.threads i).thread_id = (c.threads i).thread_id ∧
      (c'.threads i).local_timestamp = (c.threads i).local_timestamp := by
  induction order generalizing c with
  | nil =>
      obtain rfl : c = c' := Option.some.inj h
      exact ⟨rfl, fun i => ⟨rfl, rfl⟩⟩
  | cons n order ih =>
      obtain ⟨c₁, hstep, hrun⟩ := Option.bind_eq_some_iff.mp h
      obtain ⟨g, -, rfl⟩ := Option.map_eq_some_iff.mp hstep
      obtain ⟨haccepted, hthreads⟩ := ih hrun
      have hdeliver : ∀ i, ((c.deliver n g).threads i).thread_id = (c.threads i).thread_id ∧
          ((c.deliver n g).threads i).local_timestamp = (c.threads i).local_timestamp :=
        (Function.forall_update_iff c.threads fun j st =>
          State.thread_id st = (c.threads j).thread_id ∧
            State.local_timestamp st = (c.threads j).local_timestamp).mpr
              ⟨⟨rfl, rfl⟩, fun _ _ => ⟨rfl, rfl⟩⟩
      refine ⟨haccepted, fun i => ?_⟩
      rw [(hthreads i).1, (hthreads i).2]
      exact hdeliver i

/-- The deliveries between two requests. -/
theorem deliverAll_eq_some {order : List ℕ} (hc : cluster.Reachable c)
    (h : c.deliverAll order = some c') :
    cluster.Reachable c' ∧ c'.inFlight = [] ∧ c'.accepted = c.accepted ∧
      ∀ i, (c'.threads i).thread_id = (c.threads i).thread_id ∧
        (c'.threads i).local_timestamp = (c.threads i).local_timestamp := by
  simp only [Cluster.deliverAll] at h
  split at h
  · cases h
  · rename_i c₁ hrun
    split_ifs at h with hempty
    obtain rfl := Option.some.inj h
    exact ⟨hc.run hrun, List.isEmpty_iff.mp hempty, cluster_run_deliver hrun⟩

/-- A request leaves the identifiers alone, and adds its entries to the accepted ones. -/
theorem request_eq_some {i : ThreadId} {request : Request} {response : Response}
    (hc : cluster.Reachable c) (h : c.request i request = some (response, c')) :
    cluster.Reachable c' ∧
      c'.accepted = c.accepted ++ (acceptedEntries request).map (fun e => (i, e)) ∧
      ∃ state published,
        processRequest request (c.threads i) = .ok (response, state, published) ∧
        c'.threads = Function.update c.threads i state := by
  obtain ⟨state, published, hproc, rfl⟩ := Cluster.request_eq_some h
  exact ⟨hc.step (cluster_step_request hproc), rfl, state, published, hproc, rfl⟩

/-- The BEGIN of a transaction. -/
theorem exec_begin {client client' : RucClient} {i : ThreadId} (hc : cluster.Reachable c)
    (hid : ∀ j, (c.threads j).thread_id = j)
    (h : client.exec c i .begin = some (client', c')) :
    cluster.Reachable c' ∧ c'.accepted = c.accepted ∧
      (∀ j, (c'.threads j).thread_id = j) ∧
      (∀ j, (c'.threads j).local_timestamp =
        (c.threads j).local_timestamp + if i = j then 1 else 0) ∧
      10 * (c.threads i).local_timestamp + i < 2 ^ 31 ∧
      client'.current_timestamp_ = (10 * (c.threads i).local_timestamp + i : ℕ) := by
  simp only [RucClient.exec, RucClient.command] at h
  obtain ⟨⟨response, c₁⟩, hreq, heq⟩ := Option.map_eq_some_iff.mp h
  obtain ⟨rfl, rfl⟩ := Prod.mk.inj heq
  obtain ⟨hreach, haccepted, state, published, hproc, hthreads⟩ := request_eq_some hc hreq
  have hi := hid i
  have hfour := thread_lt i
  obtain ⟨hlt, rfl, hlocal⟩ := processRequest_begin (by omega) hproc
  rw [hi] at hlt
  refine ⟨hreach, by simpa [acceptedEntries] using haccepted, ?_, ?_, hlt, ?_⟩
  · rw [hthreads]
    exact (Function.forall_update_iff c.threads fun j st => State.thread_id st = j).mpr
      ⟨(processRequest_thread_id hproc).trans hi, fun j _ => hid j⟩
  · rw [hthreads]
    refine (Function.forall_update_iff c.threads fun j st => State.local_timestamp st =
      (c.threads j).local_timestamp + if i = j then 1 else 0).mpr ⟨?_, fun j hj => ?_⟩
    · rw [hlocal, if_pos rfl]
    · rw [if_neg (Ne.symm hj)]
      rfl
  · rw [hi]
    exact narrow_ofInt hlt

/-- The PUT of a transaction. -/
theorem exec_put {client client' : RucClient} {i : ThreadId} {k v : Bytes} {n : ℕ}
    (hc : cluster.Reachable c) (hn : n < 2 ^ 31) (hclient : client.current_timestamp_ = n)
    (h : client.exec c i (.put k v) = some (client', c')) :
    cluster.Reachable c' ∧
      c'.accepted = c.accepted ++ [(i, k, ⟨(⟨n⟩, ⟨v⟩)⟩)] ∧
      ∀ j, (c'.threads j).thread_id = (c.threads j).thread_id ∧
        (c'.threads j).local_timestamp = (c.threads j).local_timestamp := by
  have hne : client.current_timestamp_ ≠ -1 := by omega
  simp only [RucClient.exec, RucClient.command, if_neg hne] at h
  obtain ⟨⟨response, c₁⟩, hreq, heq⟩ := Option.map_eq_some_iff.mp h
  obtain ⟨rfl, rfl⟩ := Prod.mk.inj heq
  obtain ⟨hreach, haccepted, state, published, hproc, hthreads⟩ := request_eq_some hc hreq
  refine ⟨hreach, ?_, ?_⟩
  · rw [haccepted, hclient]
    simp [acceptedEntries, timestamped, narrow_ofInt hn]
  · rw [hthreads]
    exact (Function.forall_update_iff c.threads fun j st =>
      State.thread_id st = (c.threads j).thread_id ∧
        State.local_timestamp st = (c.threads j).local_timestamp).mpr
          ⟨⟨processRequest_thread_id hproc, processRequest_local_timestamp (by simp) hproc⟩,
            fun _ _ => ⟨rfl, rfl⟩⟩

end Steps

/-- **One more transaction.** -/
theorem sequentialInv_step {k : Bytes} {s s' : Sequential} {txn : Transaction}
    (hs : SequentialInv k s) (h : (sequential k).step s txn = some s') :
    SequentialInv k s' := by
  simp only [sequential, Option.bind_eq_some_iff, Option.map_eq_some_iff] at h
  obtain ⟨⟨client₁, c₁⟩, hbegin, c₁', hdeliver₁, ⟨client₂, c₂⟩, hput, c₂', hdeliver₂, rfl⟩ := h
  obtain ⟨hreach₁, hacc₁, hid₁, hlocal₁, hlt, hclient⟩ :=
    exec_begin hs.reachable hs.thread_id hbegin
  obtain ⟨hreach₁', -, hacc₁', hthreads₁'⟩ := deliverAll_eq_some hreach₁ hdeliver₁
  obtain ⟨hreach₂, hacc₂, hthreads₂⟩ := exec_put hreach₁' hlt hclient hput
  obtain ⟨hreach₂', hquiet, hacc₂', hthreads₂'⟩ := deliverAll_eq_some hreach₂ hdeliver₂
  refine ⟨hreach₂', hquiet, fun i => ?_, fun i => ?_, fun x => ?_⟩
  · rw [(hthreads₂' i).1, (hthreads₂ i).1, (hthreads₁' i).1, hid₁ i]
  · rw [(hthreads₂' i).2, (hthreads₂ i).2, (hthreads₁' i).2, hlocal₁ i, hs.local_timestamp i,
      List.countP_append, List.countP_singleton]
    simp
  · rw [hacc₂', hacc₂, hacc₁', hacc₁, List.map_append, List.mem_append, hs.accepted x,
      someAfter_append]
    rw [written, stamp, ← hs.local_timestamp]
    simp

/-- **The invariant** holds in every state of every run. -/
theorem sequentialInv_of_reachable {k : Bytes} {s : Sequential}
    (h : (sequential k).Reachable s) : SequentialInv k s := by
  refine Machine.Reachable.invariant (I := SequentialInv k) ?_
    (fun s a s' _ hs hstep => sequentialInv_step hs hstep) h
  refine ⟨Machine.Reachable.init, rfl, fun i => rfl, fun i => rfl, fun x => ?_⟩
  simp [sequential, cluster, SomeAfter]

/-! ### The winner -/

/-- No two transactions have the same timestamp. -/
theorem stamp_ne {p q : List Transaction} {t u : Transaction} :
    stamp p t ≠ stamp (p ++ t :: q) u := by
  intro heq
  have ht := thread_lt t.beginThread
  have hu := thread_lt u.beginThread
  simp only [stamp, List.countP_append, List.countP_cons] at heq
  have hsame : t.beginThread = u.beginThread := Fin.ext (by omega)
  simp only [hsame, decide_true, if_true] at heq
  omega

/-- Some transaction wins. -/
theorem exists_wins {done : List Transaction} (h : done ≠ []) :
    ∃ past txn, Wins done past txn := by
  induction done using List.reverseRecOn with
  | nil => exact absurd rfl h
  | append_singleton done t ih =>
      by_cases hnil : done = []
      · subst hnil
        exact ⟨[], t, ⟨[], rfl⟩, eachAfter_append.mpr ⟨EachAfter.nil, le_rfl⟩⟩
      · obtain ⟨past, txn, ⟨later, hdone⟩, hlargest⟩ := ih hnil
        rcases le_total (stamp done t) (stamp past txn) with hle | hle
        · exact ⟨past, txn, ⟨later ++ [t], by simp [hdone]⟩, hlargest.append hle⟩
        · refine ⟨done, t, ⟨[], rfl⟩, eachAfter_append.mpr ⟨?_, le_rfl⟩⟩
          exact fun p e q heq => (hlargest p e q heq).trans hle

/-- The entries of the other transactions are below that of the winner. -/
theorem Wins.written_le {done past : List Transaction} {txn : Transaction}
    (h : Wins done past txn) {p q : List Transaction} {t : Transaction}
    (heq : done = p ++ t :: q) :
    Lattice.le (written p t) (written past txn) = true := by
  obtain ⟨⟨later, hdone⟩, hlargest⟩ := h
  have hle := hlargest p t q heq
  have hlt_or : stamp p t < stamp past txn ∨ written p t = written past txn := by
    rcases List.append_eq_append_iff.mp (heq.symm.trans hdone) with ⟨a, rfl, ha⟩ | ⟨a, rfl, ha⟩
    · cases a with
      | nil =>
          obtain ⟨rfl, -⟩ := List.cons.inj ha
          exact Or.inr (by rw [List.append_nil])
      | cons u a =>
          obtain ⟨rfl, -⟩ := List.cons.inj ha
          exact Or.inl (lt_of_le_of_ne hle stamp_ne)
    · cases a with
      | nil =>
          obtain ⟨rfl, -⟩ := List.cons.inj ha
          exact Or.inr (by rw [List.append_nil])
      | cons u a =>
          obtain ⟨rfl, -⟩ := List.cons.inj ha
          exact Or.inl (lt_of_le_of_ne hle stamp_ne.symm)
  rcases hlt_or with hlt | heq
  · have hjoin : Lattice.join (written p t) (written past txn) = written past txn :=
      TimestampLattice.join_of_lt (decide_eq_true (by
        simpa [written, TimestampLattice.timestamp] using hlt))
    rw [Lattice.le, hjoin]
    exact BEq.rfl
  · rw [heq]
    exact LawfulLattice.join_idem _

/-- **All threads hold the write with the largest timestamp.** -/
theorem SequentialInv.get_winner {k : Bytes} {s : Sequential} (hs : SequentialInv k s)
    {past : List Transaction} {txn : Transaction} (hwins : Wins s.done past txn)
    (i : ThreadId) : ∃ e, (s.cluster.threads i).kvs.get? k = some e ∧
      (e == written past txn) = true := by
  have hinv := Replicas.inv_of_reachable (fun i j => mem_others.mpr)
    (replicas_reachable hs.reachable)
  have hquiet : s.cluster.denote.inFlight = [] := by simp [Cluster.denote, hs.quiet]
  have hval : (s.cluster.threads i).kvs.denote k = toClass (some (written past txn)) := by
    have hconv := congrFun (hinv.converged hquiet i) k
    rw [Replicas.total, joinAll_apply] at hconv
    refine (show (s.cluster.threads i).kvs.denote k = _ from hconv).trans (le_antisymm ?_ ?_)
    · refine joinAll_le.mpr fun b hb => ?_
      simp only [Cluster.denote, List.map_map, List.mem_map, Function.comp_apply] at hb
      obtain ⟨x, hx, rfl⟩ := hb
      obtain ⟨p, t, q, hdone, hxe⟩ := (hs.accepted x.2).mp (List.mem_map_of_mem hx)
      rw [hxe, denote_single, if_pos rfl]
      exact WithBot.coe_le_coe.mpr (Lattice.cls_le_iff.mpr (hwins.written_le hdone))
    · obtain ⟨later, hdone⟩ := hwins.1
      have hmem := (hs.accepted (k, written past txn)).mpr ⟨past, txn, later, hdone, rfl⟩
      obtain ⟨x, hx, hxe⟩ := List.mem_map.mp hmem
      refine le_joinAll ?_
      simp only [Cluster.denote, List.map_map, List.mem_map, Function.comp_apply]
      refine ⟨x, hx, ?_⟩
      rw [hxe, denote_single, if_pos rfl]
  have hrel := toClass_eq_iff.mp hval
  cases hget : (s.cluster.threads i).kvs.get? k with
  | none =>
      rw [hget] at hrel
      cases hrel
  | some e =>
      rw [hget] at hrel
      cases hrel with
      | some hbeq => exact ⟨e, rfl, hbeq⟩

/-- Every thread answers with the value of the winner. -/
theorem SequentialInv.answer_winner {k : Bytes} {s : Sequential} (hs : SequentialInv k s)
    {past : List Transaction} {txn : Transaction} (hwins : Wins s.done past txn)
    (i : ThreadId) : s.cluster.answer i k = some txn.value := by
  obtain ⟨e, hget, hbeq⟩ := hs.get_winner hwins i
  have hvalue : e.value.get = txn.value :=
    MaxLattice.beq_iff.mp (TimestampLattice.beq_iff.mp hbeq).2
  have hsettled := settled_of_reachable hs.reachable i
  simp [Cluster.answer, Cluster.request, processRequest_get_eq hsettled, hget, getResponse,
    hvalue]

/-- **Last write wins for a sequential client.** After the last one of any number of
transactions every thread answers with its value exactly if the transaction with the
largest timestamp, whose BEGIN had the most BEGINs before it at its thread or as many at a
thread with a larger identifier, wrote that value. -/
theorem last_write_wins_iff {k : Bytes} {s : Sequential} (h : (sequential k).Reachable s)
    {earlier : List Transaction} {last : Transaction} (hdone : s.done = earlier ++ [last]) :
    (∀ i, s.cluster.answer i k = some last.value) ↔
      ∀ past txn, Wins s.done past txn → txn.value = last.value := by
  have hinv := sequentialInv_of_reachable h
  constructor
  · intro hlast past txn hwins
    have hanswer := hinv.answer_winner hwins 0
    rw [hlast 0] at hanswer
    exact (Option.some.inj hanswer).symm
  · intro hvalue i
    obtain ⟨past, txn, hwins⟩ := exists_wins (show s.done ≠ [] by simp [hdone])
    rw [hinv.answer_winner hwins i, hvalue past txn hwins]

/-- Two transactions whose BEGINs are routed to the threads `3` and `0`, so that their
timestamps are `3` and `0`. -/
def laterLoses : List Transaction :=
  [⟨3, 0, [1], [], [0, 0, 0]⟩, ⟨0, 1, [2], [], [0, 0, 0]⟩]

/-- In the run `laterLoses` the first transaction wins, with another value than the last
one, and the threads do not answer with the value of the last one. -/
theorem last_write_wins_iff_later_loses : ∃ s,
    (sequential [7]).run (sequential [7]).init laterLoses = some s ∧ s.done = laterLoses ∧
      ¬ ∀ i, s.cluster.answer i [7] = some [2] := by
  have hrun : ((sequential [7]).run (sequential [7]).init laterLoses).map Sequential.done =
      some laterLoses := by decide
  obtain ⟨s, hs, hdone⟩ := Option.map_eq_some_iff.mp hrun
  have hwins : Wins laterLoses [] ⟨3, 0, [1], [], [0, 0, 0]⟩ := by
    refine ⟨⟨_, rfl⟩, ?_⟩
    exact EachAfter.append (h := laterLoses.take 1) (EachAfter.append (h := []) EachAfter.nil
      le_rfl) (by decide)
  refine ⟨s, hs, hdone, ?_⟩
  have hsplit : s.done = laterLoses.take 1 ++ [⟨0, 1, [2], [], [0, 0, 0]⟩] := hdone
  intro hlast
  have hvalue := (last_write_wins_iff (Machine.reachable_of_run hs) hsplit).mp hlast
  have hcontra := hvalue _ _ (hdone ▸ hwins)
  revert hcontra
  decide

/-- After the run `laterLoses` every thread answers with the value of the first
transaction. -/
theorem later_write_loses :
    ((sequential [7]).run (sequential [7]).init laterLoses).map
      (fun s => (List.finRange numThreads).map fun i => s.cluster.answer i [7]) =
      some [some [1], some [1], some [1], some [1]] := by
  decide

end LatticeFlow
