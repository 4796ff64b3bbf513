import Mathlib.Data.Fintype.Card
import Mathlib.Data.List.Perm.Basic
import LatticeFlow.Gossip
import LatticeFlow.Lib.Threads

/-!
# The Lifetime of a Gossip Message

The threads of `key_value_stores/server.cc` pass gossip by pointer: `send_gossip`
allocates a `GossipData` and sends its address, and every recipient, in `receive_gossip`,
joins its `db`, adds one to its `num_processed`, and deletes it if the addition returned
`NUM_THREADS - 1`.

The three actions of a recipient are separate steps here, so that the recipients of one
message run them in any interleaving. The heap keeps for every allocation which thread
made it, which threads have counted themselves and which have deleted it; reads of a
deleted `db` are recorded.

The addition returns the value before it. A message has three recipients, so the last one
of them gets `2`, and nobody deletes.

## Main results

* `lifetimeInv_of_reachable`: every recipient holds the address, in flight or in hand, or
  has counted itself, exactly one of the two and once; no message is ever deleted.
* `refines_request`, `refines_receive`, `refines_next`: as no deleted message is read, the
  threads join what the cluster of `LatticeFlow.Gossip`, which passes databases, lets them join.
* `gossip_lifetime_iff`: a message is treated as its comment promises exactly as long as
  not all recipients have processed it.
-/

namespace LatticeFlow

/-- `GossipData`. -/
structure GossipData where
  db : Database
  num_processed : ℕ

/-- A `GossipData` on the heap, with what happened to it. -/
structure Allocation where
  data : GossipData
  src : ThreadId
  /-- The threads that have added one to `num_processed`, in this order. -/
  processedBy : List ThreadId := []
  /-- The threads that have deleted it. -/
  deletedBy : List ThreadId := []

/-- Where a thread is in `receive_gossip`; `idle` is outside. -/
inductive ReceiverPc
  | idle
  /-- Before `db->join`. -/
  | joining (p : ℕ)
  /-- Before `fetch_add`. -/
  | counting (p : ℕ)
  /-- Before `delete`. -/
  | deleting (p : ℕ)
  deriving DecidableEq, Repr

/-- The threads, the heap, and the addresses in flight with their destinations. -/
structure GossipHeap where
  threads : ThreadId → State
  heap : List Allocation
  inFlight : List (ThreadId × ℕ)
  pc : ThreadId → ReceiverPc
  /-- The reads of the `db` of a deleted message. -/
  readsAfterDelete : List (ThreadId × ℕ)

/-- A step: thread `i` processes a request, the address at position `n` is received by its
destination, or thread `i` takes its next step in `receive_gossip`. -/
inductive HeapAction
  | request (i : ThreadId) (request : Request)
  | receive (n : ℕ)
  | next (i : ThreadId)

namespace GossipHeap

/-- `send_gossip`, from the allocation on: the database `db` of thread `i` is allocated
and its address sent to the other threads. -/
def send (s : GossipHeap) (i : ThreadId) (db : Database) : GossipHeap :=
  { s with
    heap := s.heap ++ [{ data := ⟨db, 0⟩, src := i }]
    inFlight := s.inFlight ++ (others i).map fun j => (j, s.heap.length) }

/-- Thread `i` processes a request. -/
def request (s : GossipHeap) (i : ThreadId) (request : Request) : Option GossipHeap :=
  if s.pc i ≠ .idle then none
  else
    match processRequest request (s.threads i) with
    | .error _ => none
    | .ok (_, state, none) => some { s with threads := Function.update s.threads i state }
    | .ok (_, state, some db) =>
        some ({ s with threads := Function.update s.threads i state }.send i db)

/-- The address at position `n` is received. -/
def receive (s : GossipHeap) (n : ℕ) : Option GossipHeap :=
  match s.inFlight[n]? with
  | none => none
  | some (j, p) =>
      if s.pc j ≠ .idle then none
      else some { s with
        inFlight := s.inFlight.eraseIdx n
        pc := Function.update s.pc j (.joining p) }

/-- The next step of thread `i` in `receive_gossip`. -/
def next (s : GossipHeap) (i : ThreadId) : Option GossipHeap :=
  match s.pc i with
  | .idle => none
  | .joining p =>
      (s.heap[p]?).map fun a =>
        { s with
          threads := Function.update s.threads i
            { s.threads i with kvs := receiveGossip (s.threads i).kvs a.data.db }
          pc := Function.update s.pc i (.counting p)
          readsAfterDelete :=
            if a.deletedBy = [] then s.readsAfterDelete else s.readsAfterDelete ++ [(i, p)] }
  | .counting p =>
      (s.heap[p]?).map fun a =>
        { s with
          heap := s.heap.set p { a with
            data := { a.data with num_processed := a.data.num_processed + 1 }
            processedBy := a.processedBy ++ [i] }
          -- `fetch_add` returns the old value.
          pc := Function.update s.pc i
            (if a.data.num_processed = numThreads - 1 then .deleting p else .idle) }
  | .deleting p =>
      (s.heap[p]?).map fun a =>
        { s with
          heap := s.heap.set p { a with deletedBy := a.deletedBy ++ [i] }
          pc := Function.update s.pc i .idle }

end GossipHeap

/-- The machine of the four threads with their heap. -/
def gossipHeap : Machine GossipHeap HeapAction where
  init := ⟨cluster.init.threads, [], [], fun _ => .idle, []⟩
  step s
    | .request i request => s.request i request
    | .receive n => s.receive n
    | .next i => s.next i

/-! ### The invariant -/

/-- How often the thread holds the address without having counted itself yet. -/
def ReceiverPc.held (p : ℕ) : ReceiverPc → ℕ
  | .joining q | .counting q => if q = p then 1 else 0
  | _ => 0

/-- How often the address `p` is in flight to `j` or in its hands. -/
def GossipHeap.pending (s : GossipHeap) (j : ThreadId) (p : ℕ) : ℕ :=
  s.inFlight.count (j, p) + (s.pc j).held p

/-- Each recipient of an allocation either has its address pending or has counted itself,
once; the counter counts; nobody has deleted it. -/
structure Allocation.Inv (a : Allocation) (pending : ThreadId → ℕ) : Prop where
  once : ∀ j, pending j + a.processedBy.count j = if j = a.src then 0 else 1
  num_processed : a.data.num_processed = a.processedBy.length
  deletedBy : a.deletedBy = []

/-- The invariant of the heap. -/
structure LifetimeInv (s : GossipHeap) : Prop where
  allocation : ∀ p (a : Allocation), s.heap[p]? = some a → a.Inv fun j => s.pending j p
  fresh : ∀ j p, s.heap.length ≤ p → s.pending j p = 0
  not_deleting : ∀ j p, s.pc j ≠ .deleting p
  reads : s.readsAfterDelete = []

/-- Two different threads that have not counted themselves leave at most two that have. -/
theorem Allocation.Inv.length_le {a : Allocation} {pending : ThreadId → ℕ} (h : a.Inv pending)
    {i : ThreadId} (hi : pending i ≠ 0) : a.processedBy.length ≤ 2 := by
  have hle : ∀ j, a.processedBy.count j ≤ 1 := by
    intro j
    have := h.once j
    split_ifs at this <;> omega
  have hsrc : a.src ∉ a.processedBy := by
    have := h.once a.src
    rw [if_pos rfl] at this
    exact List.count_eq_zero.mp (by omega)
  have hone := h.once i
  have hne : a.src ≠ i := by
    rintro rfl
    rw [if_pos rfl] at hone
    omega
  rw [if_neg hne.symm] at hone
  have hnot : i ∉ a.processedBy := List.count_eq_zero.mp (by omega)
  have hnodup : (a.src :: i :: a.processedBy).Nodup := by
    have hrest : (i :: a.processedBy).Nodup :=
      List.nodup_cons.mpr ⟨hnot, List.nodup_iff_count_le_one.mpr hle⟩
    exact List.nodup_cons.mpr ⟨by simp [hne, hsrc], hrest⟩
  have hcard := hnodup.length_le_card
  rw [Fintype.card_fin, List.length_cons, List.length_cons] at hcard
  simp only [numThreads] at hcard
  omega

/-- Sending an address to the other threads. -/
theorem count_map_others (i j : ThreadId) (p q : ℕ) :
    ((others i).map fun k => (k, q)).count (j, p) = if p = q ∧ j ≠ i then 1 else 0 := by
  have hnodup : ((others i).map fun k => (k, q)).Nodup :=
    ((List.nodup_finRange numThreads).filter _).map fun k l h => (Prod.mk.inj h).1
  split_ifs with h
  · obtain ⟨rfl, hj⟩ := h
    refine List.count_eq_one_of_mem hnodup ?_
    exact List.mem_map_of_mem (f := fun k => (k, p)) (mem_others.mpr hj)
  · refine List.count_eq_zero.mpr fun hmem => h ?_
    obtain ⟨k, hk, heq⟩ := List.mem_map.mp hmem
    obtain ⟨rfl, rfl⟩ := Prod.mk.inj heq
    exact ⟨rfl, mem_others.mp hk⟩

/-- A publication makes the new address pending once at every other thread. -/
theorem GossipHeap.pending_send (s : GossipHeap) (i j : ThreadId) (db : Database) (p : ℕ) :
    (s.send i db).pending j p =
      s.pending j p + if p = s.heap.length ∧ j ≠ i then 1 else 0 := by
  simp only [GossipHeap.pending, GossipHeap.send, List.count_append, count_map_others]
  omega

/-- The element at a position and the others. -/
theorem cons_eraseIdx_perm {α : Type} {l : List α} {n : ℕ} {x : α} (h : l[n]? = some x) :
    (x :: l.eraseIdx n).Perm l := by
  obtain ⟨hlt, rfl⟩ := List.getElem?_eq_some_iff.mp h
  exact List.getElem_cons_eraseIdx_perm hlt

/-- The receipt of an address leaves it pending. -/
theorem GossipHeap.pending_receive {s : GossipHeap} {n p : ℕ} {j : ThreadId}
    (hn : s.inFlight[n]? = some (j, p)) (hj : s.pc j = .idle) (k : ThreadId) (q : ℕ) :
    ({ s with
        inFlight := s.inFlight.eraseIdx n
        pc := Function.update s.pc j (.joining p) } : GossipHeap).pending k q =
      s.pending k q := by
  have hperm := (cons_eraseIdx_perm hn).count_eq (k, q)
  rw [List.count_cons] at hperm
  simp only [GossipHeap.pending]
  by_cases hk : k = j
  · subst hk
    rw [Function.update_self, hj]
    simp only [ReceiverPc.held, beq_iff_eq, Prod.mk.injEq, true_and] at hperm ⊢
    omega
  · rw [Function.update_of_ne hk]
    simp only [beq_iff_eq, Prod.mk.injEq, Ne.symm hk, false_and, if_false] at hperm
    omega

/-! ### The steps -/

/-- Changes that keep the heap, what is pending, and the places of no return keep the
invariant. -/
theorem LifetimeInv.congr {s s' : GossipHeap} (hs : LifetimeInv s) (hheap : s'.heap = s.heap)
    (hpending : ∀ j p, s'.pending j p = s.pending j p)
    (hdel : ∀ j p, s'.pc j ≠ .deleting p) (hreads : s'.readsAfterDelete = []) :
    LifetimeInv s' := by
  refine ⟨fun p a ha => ?_, fun j p hp => ?_, hdel, hreads⟩
  · rw [hheap] at ha
    simp only [hpending]
    exact hs.allocation p a ha
  · rw [hpending]
    exact hs.fresh j p (hheap ▸ hp)

/-- No thread starts to delete when thread `i` moves somewhere else. -/
theorem LifetimeInv.not_deleting_update {s : GossipHeap} (hs : LifetimeInv s) {i : ThreadId}
    {r : ReceiverPc} (hr : ∀ p, r ≠ .deleting p) :
    ∀ j p, Function.update s.pc i r j ≠ .deleting p :=
  (Function.forall_update_iff s.pc fun _ r => ∀ p, r ≠ .deleting p).mpr
    ⟨hr, fun j _ => hs.not_deleting j⟩

/-- A publication: the new allocation has all its recipients pending, and no other
allocation is concerned. -/
theorem LifetimeInv.send {s : GossipHeap} (hs : LifetimeInv s) (i : ThreadId)
    (db : Database) : LifetimeInv (s.send i db) := by
  refine ⟨fun p a ha => ?_, fun j p hp => ?_, hs.not_deleting, hs.reads⟩
  · simp only [GossipHeap.pending_send]
    simp only [GossipHeap.send, List.getElem?_append] at ha
    split_ifs at ha with hlt
    · have hinv := hs.allocation p a ha
      have hne : p ≠ s.heap.length := by omega
      simpa [hne] using hinv
    · obtain ⟨hzero, rfl⟩ : p - s.heap.length = 0 ∧
          ({ data := ⟨db, 0⟩, src := i } : Allocation) = a := by
        cases hsub : p - s.heap.length with
        | zero => simpa [hsub] using ha
        | succ m => simp [hsub] at ha
      have hp : p = s.heap.length := by omega
      refine ⟨fun j => ?_, rfl, rfl⟩
      rw [hs.fresh j p hp.ge]
      simp only [hp, true_and, List.count_nil]
      by_cases hj : j = i <;> simp [hj]
  · rw [GossipHeap.pending_send]
    simp only [GossipHeap.send, List.length_append, List.length_singleton] at hp
    rw [hs.fresh j p (by omega), if_neg (by omega)]

/-- **A count**: it returns at most `2`, and the thread is done with the address. -/
theorem LifetimeInv.count {s : GossipHeap} (hs : LifetimeInv s) {i : ThreadId} {p : ℕ}
    {a : Allocation} (hi : s.pc i = .counting p) (ha : s.heap[p]? = some a) :
    a.data.num_processed ≠ numThreads - 1 ∧
    LifetimeInv { s with
      heap := s.heap.set p { a with
        data := { a.data with num_processed := a.data.num_processed + 1 }
        processedBy := a.processedBy ++ [i] }
      pc := Function.update s.pc i .idle } := by
  have hinv := hs.allocation p a ha
  have hlt : p < s.heap.length := (List.getElem?_eq_some_iff.mp ha).1
  have hheld : (s.pc i).held p = 1 := by simp [hi, ReceiverPc.held]
  have hpos : s.pending i p ≠ 0 := by
    simp only [GossipHeap.pending]
    omega
  have hlen := hinv.length_le hpos
  have hnum := hinv.num_processed
  -- What is pending does not change but for `i` and `p`.
  have hpending : ∀ j q, ¬ (j = i ∧ q = p) →
      s.inFlight.count (j, q) + (Function.update s.pc i .idle j).held q = s.pending j q := by
    intro j q hjq
    by_cases hj : j = i
    · subst hj
      have hne : p ≠ q := fun heq => hjq ⟨rfl, heq.symm⟩
      simp [GossipHeap.pending, hi, ReceiverPc.held, hne]
    · rw [Function.update_of_ne hj]
      rfl
  refine ⟨by simp only [numThreads]; omega, fun q b hb => ?_, fun j q hq => ?_,
    hs.not_deleting_update (by simp), hs.reads⟩
  · by_cases hq : q = p
    · subst hq
      rw [List.getElem?_set_self hlt] at hb
      cases hb
      refine ⟨fun j => ?_, by simp [hnum], hinv.deletedBy⟩
      have hone := hinv.once j
      rw [List.count_append, List.count_singleton]
      by_cases hj : j = i
      · subst hj
        simp only [GossipHeap.pending, hheld] at hone
        simp only [GossipHeap.pending, Function.update_self, ReceiverPc.held,
          beq_self_eq_true, if_true]
        omega
      · have hrest := hpending j q fun h => hj h.1
        simp only [GossipHeap.pending, beq_iff_eq, Ne.symm hj, if_false] at hone hrest ⊢
        omega
    · rw [List.getElem?_set_ne (Ne.symm hq)] at hb
      have hrest : (fun j => s.inFlight.count (j, q) +
          (Function.update s.pc i .idle j).held q) = fun j => s.pending j q :=
        funext fun j => hpending j q fun h => hq h.2
      have hq' := hs.allocation q b hb
      rw [← hrest] at hq'
      exact hq'
  · rw [List.length_set] at hq
    exact (hpending j q fun h => by omega).trans (hs.fresh j q hq)

/-- What a step can be. -/
theorem gossipHeap_step_cases {s s' : GossipHeap} {a : HeapAction}
    (h : gossipHeap.step s a = some s') :
    (∃ i request response state,
      processRequest request (s.threads i) = .ok (response, state, none) ∧
      s' = { s with threads := Function.update s.threads i state }) ∨
    (∃ i request response state db,
      processRequest request (s.threads i) = .ok (response, state, some db) ∧
      s' = { s with threads := Function.update s.threads i state }.send i db) ∨
    (∃ n j p, s.inFlight[n]? = some (j, p) ∧ s.pc j = .idle ∧
      s' = { s with
        inFlight := s.inFlight.eraseIdx n
        pc := Function.update s.pc j (.joining p) }) ∨
    (∃ i p a, s.pc i = .joining p ∧ s.heap[p]? = some a ∧
      s' = { s with
        threads := Function.update s.threads i
          { s.threads i with kvs := receiveGossip (s.threads i).kvs a.data.db }
        pc := Function.update s.pc i (.counting p)
        readsAfterDelete :=
          if a.deletedBy = [] then s.readsAfterDelete else s.readsAfterDelete ++ [(i, p)] }) ∨
    (∃ i p a, s.pc i = .counting p ∧ s.heap[p]? = some a ∧
      s' = { s with
        heap := s.heap.set p { a with
          data := { a.data with num_processed := a.data.num_processed + 1 }
          processedBy := a.processedBy ++ [i] }
        pc := Function.update s.pc i
          (if a.data.num_processed = numThreads - 1 then .deleting p else .idle) }) ∨
    ∃ i p, s.pc i = .deleting p := by
  cases a with
  | request i request =>
      simp only [gossipHeap, GossipHeap.request] at h
      split_ifs at h
      split at h
      · cases h
      · rename_i hproc
        exact .inl ⟨i, request, _, _, hproc, (Option.some.inj h).symm⟩
      · rename_i hproc
        exact .inr (.inl ⟨i, request, _, _, _, hproc, (Option.some.inj h).symm⟩)
  | receive n =>
      simp only [gossipHeap, GossipHeap.receive] at h
      split at h
      · cases h
      · rename_i j p hn
        split_ifs at h with hj
        exact .inr (.inr (.inl ⟨n, j, p, hn, not_not.mp hj, (Option.some.inj h).symm⟩))
  | next i =>
      simp only [gossipHeap, GossipHeap.next] at h
      cases hpc : s.pc i with
      | idle =>
          rw [hpc] at h
          cases h
      | joining p =>
          simp only [hpc] at h
          obtain ⟨a, ha, hs'⟩ := Option.map_eq_some_iff.mp h
          exact .inr (.inr (.inr (.inl ⟨i, p, a, hpc, ha, hs'.symm⟩)))
      | counting p =>
          simp only [hpc] at h
          obtain ⟨a, ha, hs'⟩ := Option.map_eq_some_iff.mp h
          exact .inr (.inr (.inr (.inr (.inl ⟨i, p, a, hpc, ha, hs'.symm⟩))))
      | deleting p => exact .inr (.inr (.inr (.inr (.inr ⟨i, p, hpc⟩))))

/-- **A step keeps the invariant**. -/
theorem lifetimeInv_step {s s' : GossipHeap} {a : HeapAction} (hs : LifetimeInv s)
    (h : gossipHeap.step s a = some s') : LifetimeInv s' := by
  obtain ⟨i, _, _, _, -, rfl⟩ | ⟨i, _, _, _, db, -, rfl⟩ | ⟨n, j, p, hn, hj, rfl⟩ |
    ⟨i, p, a, hpc, ha, rfl⟩ | ⟨i, p, a, hpc, ha, rfl⟩ | ⟨i, p, hpc⟩ := gossipHeap_step_cases h
  · exact hs.congr rfl (fun _ _ => rfl) hs.not_deleting hs.reads
  · refine LifetimeInv.send ?_ i db
    exact hs.congr rfl (fun _ _ => rfl) hs.not_deleting hs.reads
  · exact hs.congr rfl (GossipHeap.pending_receive hn hj) (hs.not_deleting_update (by simp))
      hs.reads
  · refine hs.congr rfl (fun j q => ?_) (hs.not_deleting_update (by simp)) ?_
    · by_cases hj : j = i
      · subst hj
        simp [GossipHeap.pending, hpc, ReceiverPc.held]
      · simp [GossipHeap.pending, Function.update_of_ne hj]
    · rw [if_pos (hs.allocation p a ha).deletedBy]
      exact hs.reads
  · obtain ⟨hne, hinv⟩ := hs.count hpc ha
    rw [if_neg hne]
    exact hinv
  · exact absurd hpc (hs.not_deleting i p)

/-- **The invariant holds in every run.** -/
theorem lifetimeInv_of_reachable {s : GossipHeap} (h : gossipHeap.Reachable s) :
    LifetimeInv s :=
  Machine.Reachable.invariant (I := LifetimeInv)
    ⟨fun p a ha => by simp [gossipHeap] at ha,
      fun j p _ => by simp [gossipHeap, GossipHeap.pending, ReceiverPc.held],
      fun j p => by simp [gossipHeap], rfl⟩
    (fun _ _ _ _ hs h => lifetimeInv_step hs h) h

/-! ### Passing addresses passes databases -/

/-- The address that a thread has received and not read from yet. -/
def ReceiverPc.unread : ReceiverPc → Option ℕ
  | .joining p => some p
  | _ => none

/-- The addresses in the hands of threads that have not read from them yet. -/
def GossipHeap.inHand (s : GossipHeap) : List (ThreadId × ℕ) :=
  (List.finRange numThreads).filterMap fun j => (s.pc j).unread.map fun p => (j, p)

/-- The message that an address stands for. -/
def deref (heap : List Allocation) (x : ThreadId × ℕ) : Option Gossip :=
  (heap[x.2]?).map fun a => ⟨a.src, x.1, a.data.db⟩

/-- The messages that have not been joined yet. -/
def GossipHeap.messages (s : GossipHeap) : List Gossip :=
  (s.inFlight ++ s.inHand).filterMap (deref s.heap)

/-- The heap passes to the threads what the cluster passes. -/
def Refines (s : GossipHeap) (c : Cluster) : Prop :=
  c.threads = s.threads ∧ c.inFlight.Perm s.messages

/-- Thread `j` takes an address into its hands. -/
theorem GossipHeap.inHand_update {s s' : GossipHeap} {j : ThreadId} {p : ℕ}
    (hpc : s'.pc = Function.update s.pc j (.joining p)) (hj : (s.pc j).unread = none) :
    s'.inHand.Perm ((j, p) :: s.inHand) := by
  refine perm_filterMap_finRange (j := j) ?_ (by simp [hj]) fun k hk => ?_
  · simp [hpc, ReceiverPc.unread]
  · simp [hpc, Function.update_of_ne hk]

/-- A step of thread `j` outside of its join. -/
theorem GossipHeap.inHand_congr {s s' : GossipHeap} {j : ThreadId} {r : ReceiverPc}
    (hpc : s'.pc = Function.update s.pc j r) (hr : r.unread = (s.pc j).unread) :
    s'.inHand = s.inHand := by
  refine List.filterMap_congr fun k _ => ?_
  by_cases hk : k = j
  · subst hk
    simp [hpc, hr]
  · simp [hpc, Function.update_of_ne hk]

/-- Every address that is in flight or in hand is pending, so it is on the heap. -/
theorem LifetimeInv.lt_length {s : GossipHeap} (hs : LifetimeInv s) {j : ThreadId} {p : ℕ}
    (hx : (j, p) ∈ s.inFlight ++ s.inHand) : p < s.heap.length := by
  by_contra hle
  have hzero := hs.fresh j p (by omega)
  simp only [GossipHeap.pending] at hzero
  rcases List.mem_append.mp hx with hx | hx
  · have hpos := List.count_pos_iff.mpr hx
    omega
  · obtain ⟨k, -, hk⟩ := List.mem_filterMap.mp hx
    obtain ⟨q, hq, heq⟩ := Option.map_eq_some_iff.mp hk
    obtain ⟨rfl, rfl⟩ := Prod.mk.inj heq
    have hheld : (s.pc k).held q = 1 := by
      cases hpc : s.pc k <;> simp_all [ReceiverPc.unread, ReceiverPc.held]
    omega

/-- A publication adds its messages. -/
theorem LifetimeInv.messages_send {s : GossipHeap} (hs : LifetimeInv s) (i : ThreadId)
    (db : Database) : (s.send i db).messages.Perm (s.messages ++ publish i (some db)) := by
  have hold : (s.inFlight ++ s.inHand).filterMap (deref (s.send i db).heap) = s.messages := by
    refine List.filterMap_congr fun x hx => ?_
    simp only [deref, GossipHeap.send]
    rw [List.getElem?_append_left (hs.lt_length hx)]
  have hnew : ((others i).map fun j => (j, s.heap.length)).filterMap
      (deref (s.send i db).heap) = publish i (some db) := by
    rw [List.filterMap_map, publish, ← List.filterMap_eq_map]
    refine List.filterMap_congr fun j _ => ?_
    simp [deref, GossipHeap.send]
  have hperm : ((s.send i db).inFlight ++ (s.send i db).inHand).Perm
      ((s.inFlight ++ s.inHand) ++ (others i).map fun j => (j, s.heap.length)) := by
    simp only [GossipHeap.send, List.append_assoc]
    exact List.perm_append_comm.append_left s.inFlight
  rw [← hold, ← hnew, ← List.filterMap_append]
  exact hperm.filterMap (deref (s.send i db).heap)

/-- The receipt of an address leaves the messages as they are. -/
theorem GossipHeap.messages_receive {s s' : GossipHeap} {n p : ℕ} {j : ThreadId}
    (hn : s.inFlight[n]? = some (j, p)) (hj : s.pc j = .idle) (hheap : s'.heap = s.heap)
    (hflight : s'.inFlight = s.inFlight.eraseIdx n)
    (hpc : s'.pc = Function.update s.pc j (.joining p)) : s'.messages.Perm s.messages := by
  have hhand := GossipHeap.inHand_update hpc (by simp [hj, ReceiverPc.unread])
  rw [GossipHeap.messages, hheap, hflight]
  refine List.Perm.filterMap _ ?_
  exact (hhand.append_left _).trans
    (List.perm_middle.trans ((cons_eraseIdx_perm hn).append_right s.inHand))

/-- The join of a received message takes it out of the messages. -/
theorem GossipHeap.messages_join {s s' : GossipHeap} {p : ℕ} {i : ThreadId} {a : Allocation}
    (hi : s.pc i = .joining p) (ha : s.heap[p]? = some a) (hheap : s'.heap = s.heap)
    (hflight : s'.inFlight = s.inFlight)
    (hpc : s'.pc = Function.update s.pc i (.counting p)) :
    s.messages.Perm (⟨a.src, i, a.data.db⟩ :: s'.messages) := by
  have hback : s.pc = Function.update s'.pc i (.joining p) := by
    rw [hpc, Function.update_idem, ← hi, Function.update_eq_self]
  have hhand := GossipHeap.inHand_update hback (by simp [hpc, ReceiverPc.unread])
  have hderef : deref s.heap (i, p) = some ⟨a.src, i, a.data.db⟩ := by simp [deref, ha]
  have hperm : (s.inFlight ++ s.inHand).Perm ((i, p) :: (s.inFlight ++ s'.inHand)) :=
    (hhand.append_left _).trans List.perm_middle
  have hmessages := hperm.filterMap (deref s.heap)
  rw [List.filterMap_cons_some hderef] at hmessages
  rw [GossipHeap.messages, GossipHeap.messages, hheap, hflight]
  exact hmessages

/-- The count leaves the messages as they are. -/
theorem GossipHeap.messages_count {s s' : GossipHeap} {p : ℕ} {i : ThreadId}
    {a b : Allocation} (hi : s.pc i = .counting p) (ha : s.heap[p]? = some a)
    (hheap : s'.heap = s.heap.set p b) (hb : b.src = a.src ∧ b.data.db = a.data.db)
    (hflight : s'.inFlight = s.inFlight) (hpc : s'.pc = Function.update s.pc i .idle) :
    s'.messages = s.messages := by
  have hlt : p < s.heap.length := (List.getElem?_eq_some_iff.mp ha).1
  rw [GossipHeap.messages, hheap, hflight,
    GossipHeap.inHand_congr hpc (by simp [hi, ReceiverPc.unread])]
  refine List.filterMap_congr fun x _ => ?_
  by_cases hx : x.2 = p
  · simp [deref, hx, List.getElem?_set_self hlt, ha, hb]
  · simp [deref, List.getElem?_set_ne (Ne.symm hx)]

/-- A request is a request of the cluster. -/
theorem refines_request {s s' : GossipHeap} {c : Cluster} {i : ThreadId} {request : Request}
    (hs : LifetimeInv s) (hR : Refines s c) (h : s.request i request = some s') :
    ∃ c', cluster.step c (.request i request) = some c' ∧ Refines s' c' ∧
      c'.accepted = c.accepted ++ (acceptedEntries request).map fun e => (i, e) := by
  obtain ⟨hthreads, hflight⟩ := hR
  simp only [GossipHeap.request] at h
  split_ifs at h
  split at h
  · cases h
  · rename_i hproc
    cases h
    rw [← hthreads] at hproc
    refine ⟨_, cluster_step_request hproc, ⟨by rw [hthreads], ?_⟩, rfl⟩
    rw [publish, List.append_nil]
    exact hflight
  · rename_i db hproc
    cases h
    rw [← hthreads] at hproc
    refine ⟨_, cluster_step_request hproc, ⟨by rw [hthreads]; rfl, ?_⟩, rfl⟩
    exact (hflight.append_right _).trans (hs.messages_send i db).symm

/-- The receipt of an address is no step of the cluster. -/
theorem refines_receive {s s' : GossipHeap} {c : Cluster} {n : ℕ} (hR : Refines s c)
    (h : s.receive n = some s') : Refines s' c := by
  obtain ⟨hthreads, hflight⟩ := hR
  simp only [GossipHeap.receive] at h
  split at h
  · cases h
  · rename_i j p hn
    split_ifs at h with hj
    have hs' := (Option.some.inj h).symm
    have hmessages : s'.messages.Perm s.messages := by
      subst hs'
      exact GossipHeap.messages_receive hn (not_not.mp hj) rfl rfl rfl
    refine ⟨?_, hflight.trans hmessages.symm⟩
    subst hs'
    exact hthreads

/-- The join of a received message is its delivery, and the count is no step of the
cluster. -/
theorem refines_next {s s' : GossipHeap} {c : Cluster} {i : ThreadId} (hs : LifetimeInv s)
    (hR : Refines s c) (h : s.next i = some s') :
    Refines s' c ∨ ∃ n c', cluster.step c (.deliver n) = some c' ∧ Refines s' c' ∧
      c'.accepted = c.accepted := by
  obtain ⟨hthreads, hflight⟩ := hR
  simp only [GossipHeap.next] at h
  cases hpc : s.pc i with
  | idle =>
      rw [hpc] at h
      cases h
  | joining p =>
      right
      simp only [hpc] at h
      obtain ⟨a, ha, hs'⟩ := Option.map_eq_some_iff.mp h
      have hmessages : s.messages.Perm (⟨a.src, i, a.data.db⟩ :: s'.messages) := by
        subst hs'
        exact GossipHeap.messages_join hpc ha rfl rfl rfl
      have hperm := hflight.trans hmessages
      obtain ⟨n, hn⟩ := List.mem_iff_getElem?.mp (hperm.mem_iff.mpr List.mem_cons_self)
      refine ⟨n, _, cluster_step_deliver hn, ⟨?_, ?_⟩, rfl⟩
      · subst hs'
        rw [Cluster.deliver, hthreads]
      · exact ((cons_eraseIdx_perm hn).trans hperm).cons_inv
  | counting p =>
      left
      simp only [hpc] at h
      obtain ⟨a, ha, hs'⟩ := Option.map_eq_some_iff.mp h
      rw [if_neg (hs.count hpc ha).1] at hs'
      have hmessages : s'.messages = s.messages := by
        subst hs'
        exact GossipHeap.messages_count hpc ha rfl ⟨rfl, rfl⟩ rfl rfl
      refine ⟨?_, hmessages ▸ hflight⟩
      subst hs'
      exact hthreads
  | deleting p => exact absurd hpc (hs.not_deleting i p)

/-! ### Lifetime -/

/-- Every recipient of the allocation `a` at `p` has run `receive_gossip` on it to its
end. -/
def AllProcessed (s : GossipHeap) (p : ℕ) (a : Allocation) : Prop :=
  ∀ j, j ≠ a.src → j ∈ a.processedBy ∧ s.pc j ≠ .deleting p

/-- The allocation has been deleted once, by the last thread to count itself. -/
def DeletedByLast (a : Allocation) : Prop :=
  ∃ j, a.processedBy.getLast? = some j ∧ a.deletedBy = [j]

/-- The lifetime that the comment of `send_gossip` promises: no thread reads a deleted
message, and the last one to process it frees it. -/
structure Lifetime (s : GossipHeap) (p : ℕ) (a : Allocation) : Prop where
  no_read_after_delete : ∀ i, (i, p) ∉ s.readsAfterDelete
  deleted_by_last : AllProcessed s p a → DeletedByLast a

/-- **The lifetime of a gossip message.** In every run no deleted message is read, but no
message is deleted: the promise holds exactly as long as not every recipient has processed
the message. -/
theorem gossip_lifetime_iff {s : GossipHeap} (h : gossipHeap.Reachable s) {p : ℕ}
    {a : Allocation} (ha : s.heap[p]? = some a) :
    (∀ i, (i, p) ∉ s.readsAfterDelete) ∧ a.deletedBy = [] ∧
      (Lifetime s p a ↔ ¬ AllProcessed s p a) := by
  have hinv := lifetimeInv_of_reachable h
  have hdel := (hinv.allocation p a ha).deletedBy
  have hreads : ∀ i, (i, p) ∉ s.readsAfterDelete := by simp [hinv.reads]
  refine ⟨hreads, hdel, fun hlife hall => ?_, fun hnot => ⟨hreads, fun hall => absurd hall hnot⟩⟩
  obtain ⟨j, -, hj⟩ := hlife.deleted_by_last hall
  rw [hdel] at hj
  cases hj

/-- Thread `0` publishes, and the others run `receive_gossip` one after another. -/
def publishAndReceive : List HeapAction :=
  [.request 0 (.put 7 [⟨[1], [2]⟩]),
   .receive 0, .next 1, .next 1, .receive 0, .next 2, .next 2, .receive 0, .next 3, .next 3]

/-- After the run `publishAndReceive` all recipients have processed the message, and the
promise is broken. -/
theorem gossip_lifetime_iff_publish : ∃ s a,
    gossipHeap.run gossipHeap.init publishAndReceive = some s ∧ s.heap[0]? = some a ∧
      AllProcessed s 0 a ∧ ¬ Lifetime s 0 a := by
  have hrun : (gossipHeap.run gossipHeap.init publishAndReceive).map
      (fun s => (s.heap.map fun a => (a.src, a.processedBy), s.pc 1, s.pc 2, s.pc 3)) =
      some ([(0, [1, 2, 3])], .idle, .idle, .idle) := by decide
  obtain ⟨s, hs, heq⟩ := Option.map_eq_some_iff.mp hrun
  simp only [Prod.mk.injEq] at heq
  obtain ⟨hheap, h1, h2, h3⟩ := heq
  obtain ⟨a, hs0, ha⟩ := List.map_eq_singleton_iff.mp hheap
  have hget : s.heap[0]? = some a := by simp [hs0]
  obtain ⟨hsrc, hproc⟩ := Prod.mk.inj ha
  have hall : AllProcessed s 0 a := by
    intro j hj
    rw [hsrc] at hj
    rw [hproc]
    have hcases : j = 1 ∨ j = 2 ∨ j = 3 := by
      revert hj
      decide +revert
    rcases hcases with rfl | rfl | rfl
    · exact ⟨by decide, by simp [h1]⟩
    · exact ⟨by decide, by simp [h2]⟩
    · exact ⟨by decide, by simp [h3]⟩
  refine ⟨s, a, hs, hget, hall, fun hlife => ?_⟩
  exact (gossip_lifetime_iff (Machine.reachable_of_run hs) hget).2.2.mp hlife hall

/-- After the run `publishAndReceive` three threads have counted themselves and are out of
`receive_gossip`, nothing is in flight, and nobody has deleted the message. -/
theorem processed_message_is_leaked :
    (gossipHeap.run gossipHeap.init publishAndReceive).map
      (fun s => (s.heap.map fun a => (a.data.num_processed, a.processedBy, a.deletedBy),
        s.inFlight.length, [s.pc 1, s.pc 2, s.pc 3])) =
      some ([(3, [1, 2, 3], [])], 0, [.idle, .idle, .idle]) := by
  decide

end LatticeFlow
