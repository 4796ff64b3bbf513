import LatticeFlow.Gossip
import LatticeFlow.Lib.History

/-!
# Read Committed Clients

This module models `RcClient` of `key_value_stores/rc_client.cc` and the system of any
number of such clients and the four server threads. A client buffers its puts and sends
them in one PUT when its transaction ends. It runs one command at a time and waits for the
response of a request before the next command; a request is processed by whichever thread
it is routed to.

The history lists, in order, the puts that clients have buffered, the PUTs that they have
sent with the buffer of that moment, and the successful answers of the threads to GETs.

A value is **committed** in a history if a client has sent it in a PUT, and it was the
client's last put of that key before it. Joins produce no new entries
(`LatticeFlow.Server`), so that everything the threads store, gossip or answer is
committed.

## Main results

* `rcInv_of_reachable`: what is stored, gossiped or under way is committed.
* `read_committed`: every answer to a GET is a value committed before it.
-/

namespace LatticeFlow

/-! ### The client -/

/-- The commands of a `Client`. -/
inductive ClientCommand
  | begin
  | get (k : Bytes)
  | put (k v : Bytes)
  | end_
  deriving DecidableEq, Repr

/-- The request whose response a client waits for. -/
inductive Waiting
  | begin
  | get
  | end_
  deriving DecidableEq, Repr

/-- What a client prints. -/
inductive Printed
  | timestamp (t : ℤ)
  | value (v : Bytes)
  /-- `ERROR`. -/
  | error
  /-- `First run BEGIN TRANSACTION.` -/
  | firstRunBegin
  deriving DecidableEq, Repr

/-- `RcClient`, with the response it waits for and what it has printed. -/
structure RcClient where
  current_timestamp_ : ℤ := -1
  write_buffer_ : UnorderedMap Bytes Bytes := ∅
  waiting : Option Waiting := none
  printed : List Printed := []

namespace RcClient

/-- A command, up to the request that it sends if it sends one. -/
def command (client : RcClient) : ClientCommand → Option Request × RcClient
  | .begin => (some .beginTransaction, { client with waiting := some .begin })
  | .get k =>
      if client.write_buffer_.count k ≠ 0 then
        (none, { client with
          printed := client.printed ++ [.value ((client.write_buffer_.lookup k).getD [])] })
      else (some (.get k), { client with waiting := some .get })
  | .put k v =>
      if client.current_timestamp_ = -1 then
        (none, { client with printed := client.printed ++ [.firstRunBegin] })
      else (none, { client with write_buffer_ := client.write_buffer_.insert k v })
  | .end_ =>
      (some (.put (Int64.ofInt client.current_timestamp_)
        (client.write_buffer_.entries.map fun kv => ⟨kv.1, kv.2⟩)),
        { client with waiting := some .end_ })

/-- The rest of a command, once its response is there. -/
def receive (client : RcClient) (response : Response) : RcClient :=
  let succeed := response.succeed.getD false
  match client.waiting with
  | none => client
  | some .begin =>
      if succeed then
        let t := narrow (response.timestamp.getD 0)
        { client with
          current_timestamp_ := t
          waiting := none
          printed := client.printed ++ [.timestamp t] }
      else { client with waiting := none, printed := client.printed ++ [.error] }
  | some .get =>
      { client with
        waiting := none
        printed := client.printed ++
          [if succeed then .value (response.value.getD []) else .error] }
  | some .end_ =>
      { client with
        waiting := none
        write_buffer_ := ∅
        printed := client.printed ++ if succeed then [] else [.error] }

end RcClient

/-! ### The system -/

/-- What happens, as far as committed values are concerned. -/
inductive KvEvent (ι : Type)
  /-- Client `c` has buffered `v` for `k`. -/
  | put (c : ι) (k v : Bytes)
  /-- Client `c` has called `end()` and sent its buffer. -/
  | sent (c : ι) (buffer : UnorderedMap Bytes Bytes)
  /-- Thread `i` has answered a GET of `k` with `v`. -/
  | answer (i : ThreadId) (k v : Bytes)

/-- The clients, the server threads, the requests and responses under way, and the
history. -/
structure RcSystem (ι : Type) where
  clients : ι → RcClient
  cluster : Cluster
  requests : List (ι × Request)
  responses : List (ι × Response)
  history : List (KvEvent ι)

/-- A step: client `c` runs a command, the request at position `n` is processed by thread
`i`, the gossip message at position `n` is received, or the response at position `n` is. -/
inductive RcAction (ι : Type)
  | command (c : ι) (command : ClientCommand)
  | serve (n : ℕ) (i : ThreadId)
  | gossip (n : ℕ)
  | respond (n : ℕ)

namespace RcSystem

variable {ι : Type} [DecidableEq ι]

/-- What a command adds to the history. -/
def commandEvents (c : ι) (client : RcClient) : ClientCommand → List (KvEvent ι)
  | .put k v => if client.current_timestamp_ = -1 then [] else [.put c k v]
  | .end_ => [.sent c client.write_buffer_]
  | _ => []

/-- What the processing of a request adds to the history. -/
def serveEvents (i : ThreadId) (response : Response) : Request → List (KvEvent ι)
  | .get k => if response.succeed = some true then [.answer i k (response.value.getD [])] else []
  | _ => []

/-- Client `c` runs a command. -/
def command (s : RcSystem ι) (c : ι) (command : ClientCommand) : Option (RcSystem ι) :=
  if (s.clients c).waiting ≠ none then none
  else
    let (request, client) := (s.clients c).command command
    some { s with
      clients := Function.update s.clients c client
      requests := s.requests ++ request.toList.map fun r => (c, r)
      history := s.history ++ commandEvents c (s.clients c) command }

/-- The request at position `n` is processed by thread `i`. -/
def serve (s : RcSystem ι) (n : ℕ) (i : ThreadId) : Option (RcSystem ι) :=
  match s.requests[n]? with
  | none => none
  | some (c, request) =>
      match s.cluster.request i request with
      | none => none
      | some (response, cluster) =>
          some { s with
            cluster := cluster
            requests := s.requests.eraseIdx n
            responses := s.responses ++ [(c, response)]
            history := s.history ++ serveEvents i response request }

/-- The response at position `n` reaches its client. -/
def respond (s : RcSystem ι) (n : ℕ) : Option (RcSystem ι) :=
  match s.responses[n]? with
  | none => none
  | some (c, response) =>
      some { s with
        clients := Function.update s.clients c ((s.clients c).receive response)
        responses := s.responses.eraseIdx n }

end RcSystem

/-- The machine of the clients `ι` and the four threads. -/
def rcSystem (ι : Type) [DecidableEq ι] : Machine (RcSystem ι) (RcAction ι) where
  init := ⟨fun _ => {}, cluster.init, [], [], []⟩
  step s
    | .command c command => s.command c command
    | .serve n i => s.serve n i
    | .gossip n => (cluster.step s.cluster (.deliver n)).map fun c => { s with cluster := c }
    | .respond n => s.respond n

/-! ### Committed values -/

section Committed

variable {ι : Type}

/-- The event is a put of `k` by client `c`, or an `end()` of client `c`. -/
def KvEvent.touches (c : ι) (k : Bytes) : KvEvent ι → Prop
  | .put c' k' _ => c' = c ∧ k' = k
  | .sent c' _ => c' = c
  | .answer _ _ _ => False

/-- The last put of `k` by client `c` since its last `end()` put `v`. -/
def Buffered (h : List (KvEvent ι)) (c : ι) (k v : Bytes) : Prop :=
  ∃ p q, h = p ++ .put c k v :: q ∧ ∀ e ∈ q, ¬ e.touches c k

/-- Some client has sent `v` for `k`, and it was the last value that the client put there
in its transaction. -/
def Committed (h : List (KvEvent ι)) (k v : Bytes) : Prop :=
  ∃ c buffer p q, h = p ++ .sent c buffer :: q ∧ buffer.lookup k = some v ∧ Buffered p c k v

variable {h : List (KvEvent ι)} {c : ι} {k v : Bytes}

/-- Committed values stay committed. -/
theorem Committed.append (hv : Committed h k v) (h' : List (KvEvent ι)) :
    Committed (h ++ h') k v := by
  obtain ⟨c, buffer, p, q, rfl, hlookup, hbuf⟩ := hv
  exact ⟨c, buffer, p, q ++ h', by simp, hlookup, hbuf⟩

/-- Buffered values stay buffered while the client does not put the key or end. -/
theorem Buffered.append (hv : Buffered h c k v) {h' : List (KvEvent ι)}
    (hh : ∀ e ∈ h', ¬ e.touches c k) : Buffered (h ++ h') c k v := by
  obtain ⟨p, q, rfl, hq⟩ := hv
  refine ⟨p, q ++ h', by simp, fun e he => ?_⟩
  rcases List.mem_append.mp he with he | he
  · exact hq e he
  · exact hh e he

/-- A put buffers its value. -/
theorem Buffered.put : Buffered (h ++ [.put c k v]) c k v :=
  ⟨h, [], rfl, fun e he => by cases he⟩

/-- Sending a buffered value commits it. -/
theorem Buffered.sent (hv : Buffered h c k v) {buffer : UnorderedMap Bytes Bytes}
    (hlookup : buffer.lookup k = some v) : Committed (h ++ [.sent c buffer]) k v :=
  ⟨c, buffer, h, [], rfl, hlookup, hv⟩

/-- Every answer in the history is a value committed before it. -/
def AnswersCommitted (h : List (KvEvent ι)) : Prop :=
  ∀ p q i k v, h = p ++ .answer i k v :: q → Committed p k v

/-- The property, as one of each event in view of those before it. -/
theorem answersCommitted_iff : AnswersCommitted h ↔
    EachAfter (fun p e => ∀ i k v, e = .answer i k v → Committed p k v) h := by
  constructor
  · intro hh p e q heq i k v he
    exact hh p q i k v (he ▸ heq)
  · intro hh p q i k v heq
    exact hh p _ q heq i k v rfl

/-- One more event: if it is an answer, it has to be committed. -/
theorem AnswersCommitted.append (hh : AnswersCommitted h) {e : KvEvent ι}
    (he : ∀ i k v, e = .answer i k v → Committed h k v) : AnswersCommitted (h ++ [e]) :=
  answersCommitted_iff.mpr ((answersCommitted_iff.mp hh).append he)

end Committed

/-! ### The invariant -/

variable {ι : Type}

/-- The value of a database entry is committed. -/
def CommittedEntry (h : List (KvEvent ι)) (k : Bytes) (e : TimestampedStringLattice) : Prop :=
  Committed h k e.value.get

/-- What the clients have buffered is buffered in the history, and everything that is under
way to the threads, stored by them, in flight between them or answered by them is
committed. A client that waits for the response of its `end()` has sent its buffer and not
cleared it yet. -/
structure RcInv (s : RcSystem ι) : Prop where
  reachable : cluster.Reachable s.cluster
  buffered : ∀ c, (s.clients c).waiting ≠ some .end_ → ∀ k v,
    (s.clients c).write_buffer_.lookup k = some v → Buffered s.history c k v
  requests : ∀ c t kv_pair, (c, Request.put t kv_pair) ∈ s.requests →
    ∀ p ∈ kv_pair, Committed s.history p.key p.value
  stored : ∀ i, EntriesIn (CommittedEntry s.history) (s.cluster.threads i).kvs
  gossiped : ∀ g ∈ s.cluster.inFlight, EntriesIn (CommittedEntry s.history) g.db
  answers : AnswersCommitted s.history

/-- Committed entries stay committed. -/
theorem EntriesIn.committed_append {h : List (KvEvent ι)} {db : Database}
    (hdb : EntriesIn (CommittedEntry h) db) (h' : List (KvEvent ι)) :
    EntriesIn (CommittedEntry (h ++ h')) db :=
  fun k e he => (hdb k e he).append h'

/-- The requests of committed values store committed entries. -/
theorem committed_acceptedEntries {h : List (KvEvent ι)} {request : Request}
    (hreq : ∀ t kv_pair, request = .put t kv_pair → ∀ p ∈ kv_pair, Committed h p.key p.value) :
    ∀ e ∈ acceptedEntries request, CommittedEntry h e.1 e.2 := by
  intro e he
  cases request with
  | put t kv_pair =>
      obtain ⟨p, hp, rfl⟩ := List.mem_map.mp he
      exact hreq t kv_pair rfl p hp
  | beginTransaction => cases he
  | get key => cases he
  | notSet => cases he

namespace RcInv

variable [DecidableEq ι] {s : RcSystem ι}

/-- A command that leaves the buffer alone and sends no PUT. -/
theorem command_same (hs : RcInv s) {c : ι} (hc : (s.clients c).waiting = none)
    {request : Option Request} {client : RcClient}
    (hbuf : client.write_buffer_ = (s.clients c).write_buffer_)
    (hreq : ∀ t kv_pair, request ≠ some (.put t kv_pair)) :
    RcInv { s with
      clients := Function.update s.clients c client
      requests := s.requests ++ request.toList.map fun r => (c, r) } := by
  refine ⟨hs.reachable, fun c' hwait k v hlook => ?_, fun c' t kv_pair hmem => ?_, hs.stored,
    hs.gossiped, hs.answers⟩
  · by_cases hcc : c' = c
    · subst hcc
      simp only [Function.update_self, hbuf] at hlook
      exact hs.buffered c' (by simp [hc]) k v hlook
    · simp only [Function.update_of_ne hcc] at hwait hlook
      exact hs.buffered c' hwait k v hlook
  · rcases List.mem_append.mp hmem with hmem | hmem
    · exact hs.requests c' t kv_pair hmem
    · obtain ⟨r, hr, heq⟩ := List.mem_map.mp hmem
      obtain ⟨-, rfl⟩ := Prod.mk.inj heq
      exact absurd (Option.mem_toList.mp hr) (hreq t kv_pair)

/-- A put is buffered. -/
theorem command_put (hs : RcInv s) {c : ι} (hc : (s.clients c).waiting = none) (k v : Bytes) :
    RcInv { s with
      clients := Function.update s.clients c
        { s.clients c with write_buffer_ := (s.clients c).write_buffer_.insert k v }
      history := s.history ++ [.put c k v] } := by
  refine ⟨hs.reachable, fun c' hwait k' v' hlook => ?_,
    fun c' t kv_pair hmem p hp => (hs.requests c' t kv_pair hmem p hp).append _,
    fun i => (hs.stored i).committed_append _, fun g hg => (hs.gossiped g hg).committed_append _,
    hs.answers.append (by simp)⟩
  by_cases hcc : c' = c
  · subst hcc
    simp only [Function.update_self] at hlook
    by_cases hk : k' = k
    · subst hk
      rw [AList.lookup_insert] at hlook
      obtain rfl := Option.some.inj hlook
      exact Buffered.put
    · rw [AList.lookup_insert_ne hk] at hlook
      refine (hs.buffered c' (by simp [hc]) k' v' hlook).append fun e he => ?_
      obtain rfl := List.mem_singleton.mp he
      exact fun htouch => hk htouch.2.symm
  · simp only [Function.update_of_ne hcc] at hwait hlook
    refine (hs.buffered c' hwait k' v' hlook).append fun e he => ?_
    obtain rfl := List.mem_singleton.mp he
    exact fun htouch => hcc htouch.1.symm

/-- An `end()` commits what the client has buffered. -/
theorem command_end (hs : RcInv s) {c : ι} (hc : (s.clients c).waiting = none) (t : Int64) :
    RcInv { s with
      clients := Function.update s.clients c { s.clients c with waiting := some .end_ }
      requests := s.requests ++
        [(c, .put t ((s.clients c).write_buffer_.entries.map fun kv => ⟨kv.1, kv.2⟩))]
      history := s.history ++ [.sent c (s.clients c).write_buffer_] } := by
  refine ⟨hs.reachable, fun c' hwait k v hlook => ?_, fun c' t' kv_pair hmem p hp => ?_,
    fun i => (hs.stored i).committed_append _, fun g hg => (hs.gossiped g hg).committed_append _,
    hs.answers.append (by simp)⟩
  · by_cases hcc : c' = c
    · subst hcc
      simp at hwait
    · simp only [Function.update_of_ne hcc] at hwait hlook
      refine (hs.buffered c' hwait k v hlook).append fun e he => ?_
      obtain rfl := List.mem_singleton.mp he
      exact fun htouch => hcc htouch.symm
  · rcases List.mem_append.mp hmem with hmem | hmem
    · exact (hs.requests c' t' kv_pair hmem p hp).append _
    · obtain ⟨-, hput⟩ := Prod.mk.inj (List.mem_singleton.mp hmem)
      obtain ⟨-, rfl⟩ := Request.put.inj hput
      obtain ⟨kv, hkv, rfl⟩ := List.mem_map.mp hp
      have hlook : (s.clients c).write_buffer_.lookup kv.1 = some kv.2 :=
        AList.mem_lookup_iff.mpr hkv
      exact (hs.buffered c (by simp [hc]) kv.1 kv.2 hlook).sent hlook

/-- A command of a client. -/
theorem command (hs : RcInv s) {s' : RcSystem ι} {c : ι} {command : ClientCommand}
    (h : s.command c command = some s') : RcInv s' := by
  simp only [RcSystem.command] at h
  split_ifs at h with hc
  have hc := not_not.mp hc
  cases command with
  | begin =>
      simp only [RcSystem.commandEvents, RcClient.command, List.append_nil] at h
      cases h
      exact hs.command_same hc rfl (by simp)
  | get k =>
      simp only [RcSystem.commandEvents, RcClient.command, List.append_nil] at h
      split_ifs at h
      · cases h
        exact hs.command_same hc rfl (by simp)
      · cases h
        exact hs.command_same hc rfl (by simp)
  | put k v =>
      simp only [RcSystem.commandEvents, RcClient.command] at h
      split_ifs at h
      · rw [List.append_nil] at h
        cases h
        exact hs.command_same hc rfl (by simp)
      · cases h
        simpa using hs.command_put hc k v
  | end_ =>
      cases h
      simpa [RcSystem.commandEvents, RcClient.command] using hs.command_end hc _

omit [DecidableEq ι] in
/-- A thread that processes a request stores, gossips and answers committed values. -/
theorem serve (hs : RcInv s) {s' : RcSystem ι} {n : ℕ} {i : ThreadId}
    (h : s.serve n i = some s') : RcInv s' := by
  simp only [RcSystem.serve] at h
  split at h
  · cases h
  rename_i c request hn
  split at h
  · cases h
  rename_i response cluster' hcluster
  cases h
  obtain ⟨state, published, hproc, rfl⟩ := Cluster.request_eq_some hcluster
  have hset := settled_of_reachable hs.reachable i
  have hstored : EntriesIn (CommittedEntry s.history) state.kvs := by
    rw [(processRequest_ok hset hproc).2.1]
    refine (hs.stored i).putAll (committed_acceptedEntries fun t kv_pair heq => ?_)
    exact hs.requests c t kv_pair (heq ▸ List.mem_of_getElem? hn)
  refine ⟨hs.reachable.step (cluster_step_request hproc),
    fun c' hwait k v hlook => ?_, fun c' t kv_pair hmem p hp => ?_, ?_, fun g hg => ?_, ?_⟩
  · refine (hs.buffered c' hwait k v hlook).append fun e he => ?_
    cases request with
    | get key =>
        simp only [RcSystem.serveEvents] at he
        split_ifs at he
        · obtain rfl := List.mem_singleton.mp he
          exact id
        · cases he
    | beginTransaction => cases he
    | put t kv_pair => cases he
    | notSet => cases he
  · exact (hs.requests c' t kv_pair (List.mem_of_mem_eraseIdx hmem) p hp).append _
  · exact (Function.forall_update_iff s.cluster.threads fun _ st =>
      EntriesIn (CommittedEntry _) (State.kvs st)).mpr
        ⟨hstored.committed_append _, fun j _ => (hs.stored j).committed_append _⟩
  · rcases List.mem_append.mp hg with hg | hg
    · exact (hs.gossiped g hg).committed_append _
    · cases published with
      | none => cases hg
      | some db =>
          obtain ⟨j, -, rfl⟩ := List.mem_map.mp hg
          exact (EntriesIn.published hstored hproc).committed_append _
  · cases request with
    | get key =>
        simp only [RcSystem.serveEvents]
        split_ifs with hsucceed
        · obtain ⟨e, he, hvalue⟩ := processRequest_get hproc hsucceed
          refine hs.answers.append fun i' k v heq => ?_
          cases heq
          rw [hvalue]
          exact hs.stored i key e he
        · simpa using hs.answers
    | beginTransaction => simpa [RcSystem.serveEvents] using hs.answers
    | put t kv_pair => simpa [RcSystem.serveEvents] using hs.answers
    | notSet => simpa [RcSystem.serveEvents] using hs.answers

omit [DecidableEq ι] in
/-- A received gossip message joins committed entries into committed entries. -/
theorem gossip (hs : RcInv s) {cluster' : Cluster} {n : ℕ}
    (h : cluster.step s.cluster (.deliver n) = some cluster') :
    RcInv { s with cluster := cluster' } := by
  have hreach := hs.reachable.step h
  obtain ⟨g, hg, rfl⟩ := Option.map_eq_some_iff.mp h
  refine ⟨hreach, hs.buffered, hs.requests, ?_,
    fun g' hg' => hs.gossiped g' (List.mem_of_mem_eraseIdx hg'), hs.answers⟩
  have hjoin := (hs.stored g.dst).join (hs.gossiped g (List.mem_of_getElem? hg))
  exact (Function.forall_update_iff s.cluster.threads fun _ st =>
    EntriesIn (CommittedEntry s.history) (State.kvs st)).mpr ⟨hjoin, fun j _ => hs.stored j⟩

/-- A response leaves the buffer alone, or clears it at the end of the transaction. -/
theorem respond (hs : RcInv s) {s' : RcSystem ι} {n : ℕ} (h : s.respond n = some s') :
    RcInv s' := by
  simp only [RcSystem.respond] at h
  split at h
  · cases h
  rename_i c response hn
  cases h
  refine ⟨hs.reachable, fun c' hwait k v hlook => ?_, hs.requests, hs.stored, hs.gossiped,
    hs.answers⟩
  by_cases hcc : c' = c
  · subst hcc
    simp only [Function.update_self, RcClient.receive] at hlook
    cases hw : (s.clients c').waiting with
    | none =>
        rw [hw] at hlook
        exact hs.buffered c' (by simp [hw]) k v hlook
    | some w =>
        cases w with
        | begin =>
            simp only [hw] at hlook
            refine hs.buffered c' (by simp [hw]) k v ?_
            split_ifs at hlook <;> exact hlook
        | get =>
            simp only [hw] at hlook
            exact hs.buffered c' (by simp [hw]) k v hlook
        | end_ =>
            simp only [hw, AList.lookup_empty] at hlook
            cases hlook
  · simp only [Function.update_of_ne hcc] at hwait hlook
    exact hs.buffered c' hwait k v hlook

end RcInv

/-- **The invariant holds in every run.** -/
theorem rcInv_of_reachable [DecidableEq ι] {s : RcSystem ι} (h : (rcSystem ι).Reachable s) :
    RcInv s := by
  refine Machine.Reachable.invariant (I := RcInv) ?_ (fun s a s' _ hs hstep => ?_) h
  · refine ⟨Machine.Reachable.init, fun c _ k v hlook => ?_, fun c t kv_pair hmem => ?_,
      fun i => EntriesIn.empty, fun g hg => ?_, fun p q i k v heq => ?_⟩
    · simp [rcSystem] at hlook
    · simp [rcSystem] at hmem
    · simp [rcSystem, cluster] at hg
    · simp [rcSystem] at heq
  · cases a with
    | command c command => exact hs.command hstep
    | serve n i => exact hs.serve hstep
    | gossip n =>
        obtain ⟨cluster', hcluster, rfl⟩ := Option.map_eq_some_iff.mp hstep
        exact hs.gossip hcluster
    | respond n => exact hs.respond hstep

/-- **Read committed.** In every run of any number of clients, whenever a thread answers a
GET of `k` with `v`: some client had sent its buffer with `v` for `k` at an `end()` before
the answer, and `v` was the last value that the client had put for `k` in that transaction,
after its previous `end()` and with no later put of `k` before this one. -/
theorem read_committed [DecidableEq ι] {s : RcSystem ι} (h : (rcSystem ι).Reachable s)
    {before after : List (KvEvent ι)} {i : ThreadId} {k v : Bytes}
    (hanswer : s.history = before ++ .answer i k v :: after) :
    ∃ c buffer p q, before = p ++ .sent c buffer :: q ∧ buffer.lookup k = some v ∧
      ∃ p₁ p₂, p = p₁ ++ .put c k v :: p₂ ∧
        ∀ e ∈ p₂, (∀ v', e ≠ .put c k v') ∧ ∀ b, e ≠ .sent c b := by
  obtain ⟨c, buffer, p, q, hbefore, hlook, p₁, p₂, hp, hnot⟩ :=
    (rcInv_of_reachable h).answers before after i k v hanswer
  refine ⟨c, buffer, p, q, hbefore, hlook, p₁, p₂, hp, fun e he => ⟨fun v' heq => ?_,
    fun b heq => ?_⟩⟩
  · exact hnot e he (heq ▸ ⟨rfl, rfl⟩)
  · exact hnot e he (heq ▸ rfl)

/-- Client `false` writes in a transaction at thread `0`, which gossips, and client `true`
reads at thread `1`. -/
def writeThenRead : List (RcAction Bool) :=
  [.command false .begin, .serve 0 0, .respond 0,
   .command false (.put [1] [5]), .command false (.put [1] [2]), .command false .end_,
   .serve 0 0, .gossip 0, .command true (.get [1]), .serve 0 1]

/-- In the run `writeThenRead` the answer is the last value that the writer put. -/
theorem read_committed_write_then_read : ∃ s before c buffer p q,
    (rcSystem Bool).run (rcSystem Bool).init writeThenRead = some s ∧
      s.history = before ++ [.answer 1 [1] [2]] ∧
      before = p ++ .sent c buffer :: q ∧ buffer.lookup [1] = some [2] := by
  have hrun : ((rcSystem Bool).run (rcSystem Bool).init writeThenRead).map
      (fun s => s.history.getLast?) = some (some (.answer 1 [1] [2])) := rfl
  obtain ⟨s, hs, hlast⟩ := Option.map_eq_some_iff.mp hrun
  obtain ⟨before, hbefore⟩ := List.getLast?_eq_some_iff.mp hlast
  obtain ⟨c, buffer, p, q, hp, hlook, -⟩ :=
    read_committed (Machine.reachable_of_run hs) hbefore
  exact ⟨s, before, c, buffer, p, q, hs, hbefore, hp, hlook⟩

end LatticeFlow
