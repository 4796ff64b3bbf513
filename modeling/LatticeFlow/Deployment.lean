import Mathlib.Algebra.BigOperators.Group.Finset.Basic
import Mathlib.Algebra.Order.Group.Multiset
import LatticeFlow.Protobuf
import LatticeFlow.Sessions
import LatticeFlow.Workers

/-!
# The Key-Value Store as a Whole

The programs of `key_value_stores/` as they run together: any number of clients of the three
kinds, the broker `msgqueue.cc` between a `ROUTER` and a `DEALER` socket, and the four workers
of `server.cc` with their drivers, sockets and heap (`LatticeFlow.Workers`).

A client sends a serialised request on its `REQ` socket and waits for the response. The broker
passes the request to the responder of any worker, and the replies of the responders back to the
clients; it may hold back a message as long as it likes. A reply consists of one frame, from
which the client parses the response.

Protocol buffers are taken as given (`Codec`): what has been serialised is parsed as what it
was. So is ZeroMQ: a `REQ` and a `REP` socket take sending and receiving in turn, a reply goes
back to where its request came from, and `ROUTER`, `DEALER` and the publishers lose and duplicate
nothing. All four workers have subscribed when the first request arrives.

## Main results

* `deployment_refines_sessions`: whatever the parties do, the clients see what they see in the
  sessions of `LatticeFlow.Sessions`, where a request is processed in one step, and no request
  or reply is lost or duplicated.
-/

namespace LatticeFlow

/-! ### The system -/

/-- What the workers and the clients use of protocol buffers. -/
structure Codec extends Wire where
  /-- `SerializeToString` of a request. -/
  serializeRequest : Request → Bytes
  /-- The response after `ParseFromString`. -/
  parseResponse : Bytes → Response
  request_roundTrip : ∀ r, parseFromString (serializeRequest r) = r
  response_roundTrip : ∀ r, parseResponse (serializeToString r) = r

/-- The clients with the commands whose responses they wait for, the broker and the workers.
Between its sockets a message is where the broker or a responder holds it; that none is lost or
doubled on the way is assumed of ZeroMQ. -/
structure Deployment (ι : Type) where
  clients : ι → AnyClient
  issued : ι → Option ClientCommand
  /-- The requests that the broker holds. -/
  broker : List (ι × Bytes)
  workers : Workers ι
  /-- How many replies of each responder the broker has taken. -/
  taken : ThreadId → ℕ
  /-- The replies that the broker holds. -/
  replies : List (ι × List Frame)
  history : List (SessionEvent ι)

/-- A step: client `c` reads a line; the broker passes the request at position `n` to worker
`i`; a worker takes a step; the broker takes the next reply of worker `i`; or the reply at
position `n` reaches its client. -/
inductive DeploymentAction (ι : Type)
  | line (c : ι) (input : Bytes)
  | route (n : ℕ) (i : ThreadId)
  | work (a : WorkerAction ι)
  | take (i : ThreadId)
  | respond (n : ℕ)

namespace Deployment

variable {ι : Type} [DecidableEq ι] (w : Codec)

/-- Client `c` runs a command, up to the request that it sends if it sends one. -/
def command (s : Deployment ι) (c : ι) (command : ClientCommand) : Deployment ι :=
  let (request, client) := (s.clients c).command command
  { s with
    clients := Function.update s.clients c client
    issued := Function.update s.issued c (request.map fun _ => command)
    broker := s.broker ++ request.toList.map fun r => (c, w.serializeRequest r)
    history := s.history ++ Sessions.putEvents c (s.clients c) command ++
      Sessions.sentEvents c request ++ Sessions.readEvents c (s.clients c) client command }

/-- Client `c` reads a line; an invalid one has no effect. -/
def line (s : Deployment ι) (c : ι) (input : Bytes) : Option (Deployment ι) :=
  match s.issued c, replCommand input with
  | some _, _ => none
  | none, none => some s
  | none, some command => some (s.command w c command)

/-- The broker passes a request to worker `i`, whose responder takes the envelope off. -/
def route (s : Deployment ι) (n : ℕ) (i : ThreadId) : Option (Deployment ι) :=
  (s.broker[n]?).map fun (c, bytes) =>
    { s with
      broker := s.broker.eraseIdx n
      workers := s.workers.arrive i (c, [], bytes) }

/-- A worker takes a step; requests arrive through the broker only. -/
def work (s : Deployment ι) : WorkerAction ι → Option (Deployment ι)
  | .arrive _ _ _ _ => none
  | a => ((LatticeFlow.workers ι w.toWire).step s.workers a).map fun workers =>
      { s with workers := workers }

/-- The broker takes the next reply of worker `i`. -/
def take (s : Deployment ι) (i : ThreadId) : Option (Deployment ι) :=
  ((s.workers.responders i).sent[s.taken i]?).map fun reply =>
    { s with
      taken := Function.update s.taken i (s.taken i + 1)
      replies := s.replies ++ [reply] }

/-- A reply reaches its client, which parses its first frame and ends its command. -/
def respond (s : Deployment ι) (n : ℕ) : Option (Deployment ι) :=
  match s.replies[n]? with
  | some (c, frame :: _) =>
      (s.issued c).map fun command =>
        let client := (s.clients c).receive (w.parseResponse frame.data)
        { s with
          clients := Function.update s.clients c client
          issued := Function.update s.issued c none
          replies := s.replies.eraseIdx n
          history := s.history ++ Sessions.readEvents c (s.clients c) client command }
  | _ => none

end Deployment

/-- The machine of the clients, each of its kind, the broker and the workers. -/
def deployment {ι : Type} [DecidableEq ι] (kind : ι → ClientKind) (w : Codec) :
    Machine (Deployment ι) (DeploymentAction ι) where
  init :=
    { clients := fun c => .init (kind c)
      issued := fun _ => none
      broker := []
      workers := (workers ι w.toWire).init
      taken := fun _ => 0
      replies := []
      history := [] }
  step s
    | .line c input => s.line w c input
    | .route n i => s.route n i
    | .work a => s.work w a
    | .take i => s.take i
    | .respond n => s.respond w n

/-! ### What is under way -/

section UnderWay

variable {ι α : Type}

/-- An element that one list has in front of another. -/
theorem sum_coe_eq_cons {f g : ThreadId → List α} {i : ThreadId} {a : α}
    (hi : (f i).Perm (a :: g i)) (hother : ∀ j, j ≠ i → f j = g j) :
    ∑ j, (f j : Multiset α) = a ::ₘ ∑ j, (g j : Multiset α) := by
  have hrest : ∑ j ∈ Finset.univ.erase i, (f j : Multiset α) =
      ∑ j ∈ Finset.univ.erase i, (g j : Multiset α) :=
    Finset.sum_congr rfl fun j hj => by rw [hother j (Finset.ne_of_mem_erase hj)]
  rw [← Finset.add_sum_erase Finset.univ _ (Finset.mem_univ i),
    ← Finset.add_sum_erase Finset.univ (fun j => (g j : Multiset α)) (Finset.mem_univ i), hrest,
    Multiset.coe_eq_coe.mpr hi, ← Multiset.cons_coe, Multiset.cons_add]

/-- A request that the broker holds, as it arrives at a responder. -/
def asArrival (p : ι × Bytes) : ι × List Bytes × Bytes :=
  (p.1, [], p.2)

/-- The requests that no worker has received: those that the broker holds, and those that wait
at a responder. -/
def Deployment.requests (s : Deployment ι) : Multiset (ι × List Bytes × Bytes) :=
  ↑(s.broker.map asArrival) + ∑ i, ↑(s.workers.responders i).arrived

/-- The replies that no client has received: those that the broker holds, and those that it has
not taken. -/
def Deployment.responses (s : Deployment ι) : Multiset (ι × List Frame) :=
  ↑s.replies + ∑ i, ↑((s.workers.responders i).sent.drop (s.taken i))

/-- No reply is sent or received. -/
theorem Deployment.responses_congr {s s' : Deployment ι} (hreplies : s'.replies = s.replies)
    (htaken : s'.taken = s.taken)
    (hsent : ∀ j, (s'.workers.responders j).sent = (s.workers.responders j).sent) :
    s'.responses = s.responses := by
  rw [Deployment.responses, Deployment.responses, hreplies, htaken]
  exact congrArg _ (Finset.sum_congr rfl fun j _ => by rw [hsent j])

end UnderWay

/-! ### Refinement -/

section Refinement

variable {ι : Type} {kind : ι → ClientKind} {w : Codec} {s s' : Deployment ι} {r : Sessions ι}

/-- A request of the sessions, as it arrives at a responder. -/
def Codec.asked (w : Codec) (p : ι × Request) : ι × List Bytes × Bytes :=
  (p.1, [], w.serializeRequest p.2)

/-- A response of the sessions, as a responder sends it. -/
def Codec.replied (w : Codec) (p : ι × Response) : ι × List Frame :=
  (p.1, wire [] (w.serializeToString p.2))

/-- The clients are in the state of those of the sessions, what is under way is what is under
way there, and the workers refine the threads. -/
structure Deployment.Refines (w : Codec) (s : Deployment ι) (r : Sessions ι) : Prop where
  clients : r.clients = s.clients
  issued : r.issued = s.issued
  history : r.history = s.history
  requests : ((r.requests.map w.asked : List _) : Multiset _) = s.requests
  responses : ((r.responses.map w.replied : List _) : Multiset _) = s.responses
  taken_le : ∀ i, s.taken i ≤ (s.workers.responders i).sent.length
  cluster : ∃ t, gossipHeap.Reachable t ∧ s.workers.Refines w.toWire t ∧
    LatticeFlow.Refines t r.cluster

namespace Deployment.Refines

/-- The broker passes a request to a worker. -/
theorem route (hR : s.Refines w r) {n : ℕ} {i : ThreadId} (h : s.route n i = some s') :
    s'.Refines w r := by
  obtain ⟨⟨c, bytes⟩, hn, rfl⟩ := Option.map_eq_some_iff.mp h
  set s' : Deployment ι :=
    { s with broker := s.broker.eraseIdx n, workers := s.workers.arrive i (c, [], bytes) }
  have hsent : ∀ j, (s'.workers.responders j).sent = (s.workers.responders j).sent := by
    intro j
    simp only [s', Workers.arrive, Function.update_apply]
    split_ifs with hj
    · rw [hj]
    · rfl
  have hbroker : (s.broker.map asArrival : Multiset (ι × List Bytes × Bytes)) =
      (c, [], bytes) ::ₘ ↑(s'.broker.map asArrival) :=
    Multiset.coe_eq_coe.mpr ((cons_eraseIdx_perm hn).map asArrival).symm
  have harrived : ∑ j, ((s'.workers.responders j).arrived : Multiset _) =
      (c, ([] : List Bytes), bytes) ::ₘ ∑ j, ↑(s.workers.responders j).arrived := by
    refine sum_coe_eq_cons (i := i) ?_ fun j hj => ?_
    · simp [s', Workers.arrive]
    · simp [s', Workers.arrive, hj]
  change s'.Refines w r
  refine ⟨hR.clients, hR.issued, hR.history, ?_, ?_, fun j => ?_, ?_⟩
  · rw [hR.requests, Deployment.requests, Deployment.requests, hbroker, harrived,
      Multiset.cons_add, Multiset.add_cons]
  · have hsame : s'.responses = s.responses := Deployment.responses_congr rfl rfl hsent
    rw [hsame]
    exact hR.responses
  · rw [hsent]
    exact hR.taken_le j
  · obtain ⟨t, ht, hst, htc⟩ := hR.cluster
    exact ⟨t, ht, ⟨hst.memory, hst.inFlight⟩, htc⟩

/-- The broker takes a reply. -/
theorem take (hR : s.Refines w r) {i : ThreadId} (h : s.take i = some s') : s'.Refines w r := by
  obtain ⟨reply, hreply, rfl⟩ := Option.map_eq_some_iff.mp h
  obtain ⟨hlt, hget⟩ := List.getElem?_eq_some_iff.mp hreply
  set s' : Deployment ι :=
    { s with
      taken := Function.update s.taken i (s.taken i + 1)
      replies := s.replies ++ [reply] }
  refine ⟨hR.clients, hR.issued, hR.history, hR.requests, ?_, fun j => ?_, hR.cluster⟩
  · have hleft : ∑ j, ((s.workers.responders j).sent.drop (s.taken j) : Multiset _) =
        reply ::ₘ ∑ j, ↑((s.workers.responders j).sent.drop (s'.taken j)) := by
      refine sum_coe_eq_cons (i := i) ?_ fun j hj => ?_
      · simp only [s', Function.update_self]
        rw [List.drop_eq_getElem_cons hlt, hget]
      · simp [s', hj]
    rw [hR.responses, Deployment.responses, Deployment.responses, hleft, Multiset.add_cons,
      ← Multiset.cons_add]
    congr 1
    exact Multiset.coe_eq_coe.mpr (List.perm_append_singleton _ _).symm
  · by_cases hj : j = i
    · subst hj
      simp only [s', Function.update_self]
      exact hlt
    · simpa [s', hj] using hR.taken_le j

/-- A worker goes on without a request. -/
theorem work_of_responders (hR : s.Refines w r) {workers : Workers ι} {r' : Sessions ι}
    (hresponders : workers.responders = s.workers.responders)
    (hr : r' = { r with cluster := r'.cluster })
    (hcluster : ∃ t, gossipHeap.Reachable t ∧ workers.Refines w.toWire t ∧
      LatticeFlow.Refines t r'.cluster) :
    Deployment.Refines w { s with workers := workers } r' := by
  rw [hr]
  refine ⟨hR.clients, hR.issued, hR.history, ?_, ?_, fun j => ?_, hcluster⟩
  · rw [Deployment.requests, hresponders]
    exact hR.requests
  · rw [Deployment.responses, hresponders]
    exact hR.responses
  · rw [hresponders]
    exact hR.taken_le j

/-- A request that is under way is one of the sessions. -/
theorem exists_request (hR : s.Refines w r) {p : ι × List Bytes × Bytes} (hp : p ∈ s.requests) :
    ∃ (n : ℕ) (request : Request), r.requests[n]? = some (p.1, request) ∧
      p = w.asked (p.1, request) := by
  rw [← hR.requests, Multiset.mem_coe, List.mem_map] at hp
  obtain ⟨⟨c, request⟩, hrequest, rfl⟩ := hp
  obtain ⟨n, hn⟩ := List.mem_iff_getElem?.mp hrequest
  exact ⟨n, request, hn, rfl⟩

/-- A reply that is under way is a response of the sessions. -/
theorem exists_response (hR : s.Refines w r) {p : ι × List Frame} (hp : p ∈ s.responses) :
    ∃ (n : ℕ) (response : Response), r.responses[n]? = some (p.1, response) ∧
      p = w.replied (p.1, response) := by
  rw [← hR.responses, Multiset.mem_coe, List.mem_map] at hp
  obtain ⟨⟨c, response⟩, hresponse, rfl⟩ := hp
  obtain ⟨n, hn⟩ := List.mem_iff_getElem?.mp hresponse
  exact ⟨n, response, hn, rfl⟩

/-- **A worker answers a request**: a request of the sessions is processed in one step. -/
theorem answer (hR : s.Refines w r) {i : ThreadId} (workers : Workers ι)
    (hworkers : workers.responders = s.workers.responders) (hrefines : ∀ t,
      s.workers.Refines w.toWire t → workers.Refines w.toWire t) (hidle : workers.pc i = .idle)
    {c : ι} {init : List Bytes} {last : Bytes} {arrived : List (ι × List Bytes × Bytes)}
    {response : Response} {state : State} {published : Option Database}
    (harr : (workers.responders i).arrived = (c, init, last) :: arrived)
    (hproc : processRequest (w.parseFromString last) (workers.threads i) =
      .ok (response, state, published)) :
    ∃ n r', r.serve n i = some r' ∧
      Deployment.Refines w { s with
        workers := workers.answered w.toWire i c arrived (w.parseFromString last) response state
          published } r' := by
  obtain ⟨t, ht, hst, htc⟩ := hR.cluster
  -- The request is one of the sessions.
  have hmem : (c, init, last) ∈ s.requests := by
    refine Multiset.mem_add.mpr (.inr (Multiset.mem_sum.mpr ⟨i, Finset.mem_univ i, ?_⟩))
    rw [← hworkers, harr]
    exact List.mem_cons_self
  obtain ⟨n, request, hn, heq⟩ := hR.exists_request hmem
  simp only [Codec.asked, Prod.mk.injEq, true_and] at heq
  obtain ⟨rfl, rfl⟩ := heq
  rw [w.request_roundTrip] at hproc ⊢
  -- Its processing is the same.
  obtain ⟨t', ht', hst'⟩ := (hrefines t hst).answer hidle c arrived hproc
  obtain ⟨cluster', hcluster, htc', -⟩ :=
    refines_request (lifetimeInv_of_reachable ht) htc ht'
  have hthreads : r.cluster.threads = workers.threads := htc.1.trans (hrefines t hst).threads
  have hresponse : r.cluster.request i request = some (response, cluster') := by
    rw [← hthreads] at hproc
    obtain ⟨⟨response', _⟩, hresponse, rfl⟩ := Option.map_eq_some_iff.mp hcluster
    simp only [Cluster.request, hproc] at hresponse ⊢
    obtain ⟨rfl, rfl⟩ := Prod.mk.inj (Option.some.inj hresponse)
    rfl
  refine ⟨n, { r with
    cluster := cluster'
    requests := r.requests.eraseIdx n
    responses := r.responses ++ [(c, response)] }, ?_, ?_⟩
  · simp only [Sessions.serve, hn, hresponse, Option.map_some]
  set s' : Deployment ι := { s with
    workers := workers.answered w.toWire i c arrived request response state published } with hs'
  have harrived : ∑ j, ((s.workers.responders j).arrived : Multiset _) =
      w.asked (c, request) ::ₘ ∑ j, ↑(s'.workers.responders j).arrived := by
    rw [← hworkers]
    refine sum_coe_eq_cons (i := i) ?_ fun j hj => ?_
    · simp [hs', Workers.answered, harr, Codec.asked]
    · simp [hs', Workers.answered, hj]
  have hsent : ∑ j, ((s'.workers.responders j).sent.drop (s'.taken j) : Multiset _) =
      w.replied (c, response) ::ₘ ∑ j, ↑((s.workers.responders j).sent.drop (s.taken j)) := by
    rw [← hworkers]
    refine sum_coe_eq_cons (i := i) ?_ fun j hj => ?_
    · have hle := hR.taken_le i
      rw [← hworkers] at hle
      simp only [hs', Workers.answered, Function.update_self]
      rw [List.drop_append_of_le_length hle]
      exact List.perm_append_singleton _ _
    · simp [hs', Workers.answered, hj]
  refine ⟨hR.clients, hR.issued, hR.history, ?_, ?_, fun j => ?_, t',
    ht.step (a := .request i request) ht', hst', htc'⟩
  · have hperm := (cons_eraseIdx_perm hn).map w.asked
    have hold := hR.requests
    rw [← Multiset.coe_eq_coe.mpr hperm, List.map_cons, ← Multiset.cons_coe, Deployment.requests,
      harrived, Multiset.add_cons, Multiset.cons_inj_right] at hold
    exact hold
  · rw [List.map_append, ← Multiset.coe_add, hR.responses, Deployment.responses,
      Deployment.responses, hsent, Multiset.add_cons, List.map_singleton,
      Multiset.coe_singleton, Multiset.add_comm, Multiset.singleton_add]
  · have hle := hR.taken_le j
    rw [← hworkers] at hle
    by_cases hj : j = i
    · subst hj
      simp only [hs', Workers.answered, Function.update_self, List.length_append]
      omega
    · simpa [hs', Workers.answered, hj] using hle

variable [DecidableEq ι]

/-- A command of a client. -/
theorem command (hR : s.Refines w r) (c : ι) (command : ClientCommand) :
    (s.command w c command).Refines w (r.command c command) := by
  obtain ⟨clients, issued, cluster, requests, responses, history⟩ := r
  obtain rfl : clients = s.clients := hR.clients
  obtain rfl : issued = s.issued := hR.issued
  obtain rfl : history = s.history := hR.history
  refine ⟨rfl, rfl, rfl, ?_, hR.responses, hR.taken_le, hR.cluster⟩
  have hrequests := hR.requests
  simp only [Sessions.command, Deployment.command, Deployment.requests] at hrequests ⊢
  rw [List.map_append, List.map_append, ← Multiset.coe_add, ← Multiset.coe_add, hrequests,
    List.map_map, List.map_map, add_right_comm]
  rfl

/-- **A step of a worker.** -/
theorem work (kind : ι → ClientKind) (hR : s.Refines w r) {workers : Workers ι}
    (h : WorkersStep w.toWire s.workers workers)
    (harrive : workers.arrivals = s.workers.arrivals) :
    Deployment.Refines w { s with workers := workers } r ∨
      ∃ a r', (sessions kind).step r a = some r' ∧
        Deployment.Refines w { s with workers := workers } r' := by
  obtain ⟨t, ht, hst, htc⟩ := hR.cluster
  cases h with
  | arrive i request =>
      have hone := congrArg List.length (congrFun harrive i)
      simp [Workers.arrive] at hone
  | @drive i a d hd hidle =>
      exact .inl (hR.work_of_responders rfl rfl ⟨t, ht, ⟨hst.memory, hst.inFlight⟩, htc⟩)
  | @answer i d c init last arrived response state published hd hidle harr hproc =>
      obtain ⟨n, r', hserve, hR'⟩ := hR.answer (s.workers.drive i d) rfl
        (fun t hst => ⟨hst.memory, hst.inFlight⟩) hidle harr hproc
      exact .inr ⟨.serve n i, r', hserve, hR'⟩
  | @receive i d n frame hd hrun hidle hn =>
      have hdrive : (s.workers.drive i d).Refines w.toWire t := ⟨hst.memory, hst.inFlight⟩
      obtain ⟨m, t', ht', hst'⟩ := hdrive.receive hidle hn
      have hreach : gossipHeap.Reachable t' := ht.step (a := .receive m) ht'
      exact .inl (hR.work_of_responders rfl rfl ⟨t', hreach, hst', refines_receive htc ht'⟩)
  | @next i m hm =>
      obtain ⟨t', ht', hst'⟩ := hst.next hm
      have hreach : gossipHeap.Reachable t' := ht.step (a := .next i) ht'
      rcases refines_next (lifetimeInv_of_reachable ht) htc ht' with htc' | ⟨n, c', hc', htc', -⟩
      · exact .inl (hR.work_of_responders rfl rfl ⟨t', hreach, hst', htc'⟩)
      · refine .inr ⟨.gossip n, { r with cluster := c' }, ?_,
          hR.work_of_responders rfl rfl ⟨t', hreach, hst', htc'⟩⟩
        simp only [sessions, hc', Option.map_some]

/-- **A reply reaches its client.** -/
theorem respond (hR : s.Refines w r) {n : ℕ} (h : s.respond w n = some s') :
    s'.workers = s.workers ∧ ∃ m r', r.respond m = some r' ∧ s'.Refines w r' := by
  simp only [Deployment.respond] at h
  split at h
  · rename_i c frame frames hn
    obtain ⟨command, hissued, rfl⟩ := Option.map_eq_some_iff.mp h
    -- The reply is a response of the sessions.
    have hmem : (c, frame :: frames) ∈ s.responses :=
      Multiset.mem_add.mpr (.inl (List.mem_of_getElem? hn))
    obtain ⟨m, response, hm, heq⟩ := hR.exists_response hmem
    simp only [Codec.replied, wire, List.map_nil, List.nil_append, Prod.mk.injEq,
      List.cons.injEq, true_and] at heq
    obtain ⟨rfl, rfl⟩ := heq
    obtain ⟨clients, issued, cluster, requests, responses, history⟩ := r
    obtain rfl : clients = s.clients := hR.clients
    obtain rfl : issued = s.issued := hR.issued
    obtain rfl : history = s.history := hR.history
    rw [w.response_roundTrip]
    have hrespond : Sessions.respond ⟨s.clients, s.issued, cluster, requests, responses,
        s.history⟩ m = some
        { clients := Function.update s.clients c ((s.clients c).receive response)
          issued := Function.update s.issued c none
          cluster := cluster
          requests := requests
          responses := responses.eraseIdx m
          history := s.history ++
            Sessions.readEvents c (s.clients c) ((s.clients c).receive response) command } := by
      simp only [Sessions.respond, hm, hissued, Option.map_some]
    refine ⟨rfl, m, _, hrespond, rfl, rfl, rfl, hR.requests, ?_, hR.taken_le, hR.cluster⟩
    have hold := hR.responses
    have hleft := (cons_eraseIdx_perm hm).map w.replied
    have hright := cons_eraseIdx_perm hn
    rw [← Multiset.coe_eq_coe.mpr hleft, List.map_cons, ← Multiset.cons_coe,
      Deployment.responses, ← Multiset.coe_eq_coe.mpr hright, ← Multiset.cons_coe,
      Multiset.cons_add] at hold
    exact (Multiset.cons_inj_right _).mp hold
  · cases h

end Deployment.Refines

/-- Requests do not arrive in a step of a worker. -/
theorem Deployment.work_eq_some (hinv : WorkersInv s.workers) {a : WorkerAction ι}
    (h : s.work w a = some s') :
    ∃ workers', (LatticeFlow.workers ι w.toWire).step s.workers a = some workers' ∧
      workers'.arrivals = s.workers.arrivals ∧ s' = { s with workers := workers' } := by
  cases a with
  | arrive i c init last => cases h
  | poll i revents =>
      obtain ⟨workers', hstep, rfl⟩ := Option.map_eq_some_iff.mp h
      obtain ⟨d, -, rfl⟩ := Option.map_eq_some_iff.mp (id hstep)
      exact ⟨_, hstep, rfl, rfl⟩
  | turn i n =>
      obtain ⟨workers', hstep, rfl⟩ := Option.map_eq_some_iff.mp h
      refine ⟨workers', hstep, ?_, rfl⟩
      obtain ⟨d, -, hturned⟩ := Option.bind_eq_some_iff.mp hstep
      simp only [Workers.turned] at hturned
      split at hturned
      · cases hturned
        rfl
      · obtain ⟨c, init, last, arrived, response, state, published, -, -, rfl⟩ :=
          Workers.requestIn_eq_some (s := s.workers.drive i d) (hinv.answering i) hturned
        simp [Workers.answered, Workers.drive]
      · obtain ⟨frame, -, rfl⟩ := Workers.gossipIn_eq_some hturned
        rfl
  | next i =>
      obtain ⟨workers', hstep, rfl⟩ := Option.map_eq_some_iff.mp h
      obtain ⟨m, -, rfl⟩ := Option.map_eq_some_iff.mp (id hstep)
      exact ⟨_, hstep, rfl, rfl⟩
  | handlerReturns i =>
      obtain ⟨workers', hstep, rfl⟩ := Option.map_eq_some_iff.mp h
      refine ⟨workers', hstep, ?_, rfl⟩
      simp only [LatticeFlow.workers] at hstep
      split_ifs at hstep
      obtain ⟨d, -, rfl⟩ := Option.map_eq_some_iff.mp hstep
      rfl

variable [DecidableEq ι]

/-- **The simulation.** -/
theorem deployment_simulated (h : (deployment kind w).Reachable s) :
    ∃ r, (sessions kind).Reachable r ∧
      (workers ι w.toWire).Reachable s.workers ∧ s.Refines w r := by
  have hinit : (deployment kind w).init.Refines w (sessions kind).init := by
    refine ⟨rfl, rfl, rfl, ?_, ?_, fun _ => le_rfl, gossipHeap.init, Machine.Reachable.init,
      ⟨rfl, fun _ _ => rfl⟩, rfl, List.Perm.refl _⟩
    · simp [sessions, deployment, Deployment.requests, workers]
    · simp [sessions, deployment, Deployment.responses, workers]
  refine h.simulate (R := fun s r => (workers ι w.toWire).Reachable s.workers ∧ s.Refines w r)
    ⟨Machine.Reachable.init, hinit⟩ fun s r a s' _ hsr hstep => ?_
  obtain ⟨hworkers, hR⟩ := hsr
  cases a with
  | line c input =>
      simp only [deployment, Deployment.line] at hstep
      split at hstep
      · cases hstep
      · obtain rfl := Option.some.inj hstep
        exact .inl ⟨hworkers, hR⟩
      · rename_i command hissued hcommand
        obtain rfl := Option.some.inj hstep
        refine .inr ⟨.line c input, r.command c command, ?_, hworkers, hR.command c command⟩
        simp only [sessions, Sessions.line, hR.issued, hissued, hcommand]
  | route n i =>
      obtain ⟨⟨c, bytes⟩, hn, rfl⟩ := Option.map_eq_some_iff.mp hstep
      exact .inl ⟨hworkers.step (a := .arrive i c [] bytes) rfl, hR.route hstep⟩
  | work a =>
      have hinv := workersInv_of_reachable hworkers
      obtain ⟨workers', hwork, harrivals, rfl⟩ := Deployment.work_eq_some hinv hstep
      have hworkers' := hworkers.step hwork
      rcases Deployment.Refines.work kind hR (workersStep_of_step hinv hwork) harrivals with
        hR' | ⟨b, r', hb, hR'⟩
      · exact .inl ⟨hworkers', hR'⟩
      · exact .inr ⟨b, r', hb, hworkers', hR'⟩
  | take i =>
      have hR' := hR.take hstep
      obtain ⟨reply, -, rfl⟩ := Option.map_eq_some_iff.mp hstep
      exact .inl ⟨hworkers, hR'⟩
  | respond n =>
      obtain ⟨hsame, m, r', hr', hR'⟩ := hR.respond hstep
      exact .inr ⟨.respond m, r', hr', hsame ▸ hworkers, hR'⟩

/-- **The key-value store refines the sessions, and loses nothing.** Whatever the clients, the
broker and the workers do: the clients and the databases are in a state that they reach in the
sessions of `LatticeFlow.Sessions`, with the same history; and for each client that waits for a
response exactly one request or reply is under way, and none for the others. -/
theorem deployment_refines_sessions (h : (deployment kind w).Reachable s) :
    (∃ r, (sessions kind).Reachable r ∧ r.clients = s.clients ∧ r.issued = s.issued ∧
      r.history = s.history ∧ r.cluster.threads = s.workers.threads) ∧
    ∀ c, (s.requests.map Prod.fst).count c + (s.responses.map Prod.fst).count c =
      if s.issued c = none then 0 else 1 := by
  obtain ⟨r, hr, -, hR⟩ := deployment_simulated h
  obtain ⟨t, -, hst, htc⟩ := hR.cluster
  refine ⟨⟨r, hr, hR.clients, hR.issued, hR.history, htc.1.trans hst.threads⟩, fun c => ?_⟩
  have hcount := (sessionInv_of_reachable hr).traffic.outstanding c
  rw [List.count_append, hR.issued] at hcount
  rw [← hcount, ← hR.requests, ← hR.responses]
  simp only [Multiset.map_coe, List.map_map, Multiset.coe_count]
  rfl

end Refinement

/-! ### A run -/

/-- Protocol buffers, and addresses of eight bytes. -/
def protobuf : Codec where
  parseFromString := parseRequest
  serializeToString := serializeResponse
  pointerToMessage := littleEndian
  messageToPointer b := Nat.ofDigits 256 (b.map Fin.val)
  pointer_roundTrip := ofDigits_littleEndian
  serializeRequest := serializeRequest
  parseResponse := LatticeFlow.parseResponse
  request_roundTrip := parseRequest_serializeRequest
  response_roundTrip := parseResponse_serializeResponse

/-- Client `c` types a command whose request worker `i` answers. -/
def typeAndWait (c : ClientKind) (command : ClientCommand) (i : ThreadId) :
    List (DeploymentAction ClientKind) :=
  [.line c ([space].intercalate (commandWords command)), .route 0 i, .work (.poll i [1, 0]),
    .work (.turn i 0), .work (.handlerReturns i), .work (.turn i 0), .work (.turn i 0), .take i,
    .respond 0]

/-- Worker `i` receives the first address that waits at its subscriber. -/
def receiveGossipAt (i : ThreadId) : List (DeploymentAction ClientKind) :=
  [.work (.poll i [0, 1]), .work (.turn i 0), .work (.turn i 0), .work (.next i), .work (.next i),
    .work (.handlerReturns i), .work (.turn i 0)]

/-- A `RucClient` puts a value at worker `0`, and an `RcClient` reads it at worker `2`. -/
def putHereGetThere : List (DeploymentAction ClientKind) :=
  typeAndWait .ruc .begin 0 ++ typeAndWait .ruc (.put [107] [118]) 0 ++ receiveGossipAt 2 ++
    typeAndWait .rc (.get [107]) 2

/-- In the run `putHereGetThere` the `RcClient` prints what the `RucClient` has put, and so it
does in the sessions; nothing of it is under way any more. -/
theorem deployment_refines_sessions_put_here_get_there : ∃ s r,
    (deployment id protobuf).run (deployment id protobuf).init putHereGetThere = some s ∧
      (s.clients .rc).values = [[118]] ∧ (sessions id).Reachable r ∧ r.clients = s.clients ∧
      r.history = s.history ∧
      (s.requests.map Prod.fst).count .rc + (s.responses.map Prod.fst).count .rc = 0 := by
  have hrun : ((deployment id protobuf).run (deployment id protobuf).init putHereGetThere).map
      (fun s => ((s.clients .rc).values, s.issued .rc)) = some ([[118]], none) := by
    decide +kernel
  obtain ⟨s, hs, heq⟩ := Option.map_eq_some_iff.mp hrun
  obtain ⟨hvalues, hissued⟩ := Prod.mk.inj heq
  obtain ⟨⟨r, hr, hclients, -, hhistory, -⟩, hcount⟩ :=
    deployment_refines_sessions (Machine.reachable_of_run hs)
  have hnone := hcount .rc
  rw [if_pos hissued] at hnone
  exact ⟨s, r, hs, hvalues, hr, hclients, hhistory, hnone⟩

end LatticeFlow
