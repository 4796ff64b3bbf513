import Mathlib.Data.Nat.Digits.Defs
import LatticeFlow.Envelope
import LatticeFlow.GossipLifetime
import LatticeFlow.ServerHistory
import LatticeFlow.Timer

/-!
# The Workers on Their Sockets

`worker_routine` of `key_value_stores/server.cc` from the call of `driver.Run()` on. Each of
the four workers runs a driver with two handlers, both of them a `SocketRecv`. The one on the
responder receives a message, parses a request from its last frame, processes it and sends
the response as a message of one frame. The one on the subscriber receives the address of a
`GossipData` and calls `receive_gossip`, whose steps interleave with those of other workers.

The four workers are past their start-up code, all of them subscribed (what happens before that
is in `LatticeFlow.Startup`). Of ZeroMQ it is assumed that the responder, a `ZMQ_REP` socket,
keeps the return address of the request it has received, and refuses to receive before that
request has been answered, and to send otherwise (`EFSM`); and that what is published reaches
each of the other workers once. Requests reach a responder in any order; the addresses that
have been published for a subscriber are received in any order.

What else is taken from elsewhere is in `Wire`: parsing and serialising protocol buffers, and the
bytes of an address. `ParseFromString` may fail, and leaves some request behind then; nothing
is assumed of it. A request whose processing throws ends the server.

The list of the requests that have arrived, and of those processed with their responses, are
ghosts.

## Main results

* `workers_refine_heap`, `workers_refine_cluster`: the workers do with their sockets what the
  threads of `LatticeFlow.GossipLifetime` and of `LatticeFlow.Gossip` do.
* `workers_answer_in_order`: each request is answered once, in order, to its sender, as the
  threads of `LatticeFlow.ServerHistory` answer it.
* `workers_converge`: with no address on its way all databases are equal.
* `workers_throw_iff`: when the processing of a request throws.
-/

namespace LatticeFlow

/-! ### Sockets -/

/-- What the workers use of protocol buffers and of pointers. -/
structure Wire where
  /-- The request after `ParseFromString`, whatever that returns. -/
  parseFromString : Bytes → Request
  serializeToString : Response → Bytes
  /-- The bytes of the address of an allocation, as `send_pointer` copies them. -/
  pointerToMessage : ℕ → Bytes
  /-- `message_to_pointer`. -/
  messageToPointer : Bytes → ℕ
  pointer_roundTrip : ∀ p, messageToPointer (pointerToMessage p) = p

/-- A `ZMQ_REP` socket: the requests that have arrived, with their return addresses and their
frames; the return address of the request that has been received and not been answered; and
the replies. How it takes its turns and where it sends a reply is assumed of ZeroMQ. -/
structure RepSocket (ι : Type) where
  arrived : List (ι × List Bytes × Bytes) := []
  answering : Option ι := none
  sent : List (ι × List Frame) := []

/-- Why a call on a `ZMQ_REP` socket does not return. -/
inductive RepFailure
  /-- It is not the turn of this call. -/
  | efsm
  | recv (e : RecvFailure)
  deriving DecidableEq, Repr

namespace RepSocket

variable {ι : Type}

/-- `recv_enveloped_msg` on the socket. -/
def recvEnvelopedMsg (socket : RepSocket ι) : Except RepFailure (EnvelopedMessage × RepSocket ι) :=
  match socket.answering, socket.arrived with
  | some _, _ => .error .efsm
  | none, [] => .error (.recv .waits)
  | none, (c, init, last) :: arrived =>
      match LatticeFlow.recvEnvelopedMsg (wire init last) with
      | .error e => .error (.recv e)
      | .ok (env, _) => .ok (env, { socket with arrived := arrived, answering := some c })

/-- `send_enveloped_msg` on the socket. -/
def sendEnvelopedMsg (socket : RepSocket ι) (env : EnvelopedMessage) :
    Except RepFailure (RepSocket ι) :=
  match socket.answering with
  | none => .error .efsm
  | some c =>
      .ok { socket with
        answering := none
        sent := socket.sent ++ [(c, LatticeFlow.sendEnvelopedMsg env [])] }

end RepSocket

/-! ### The workers -/

/-- The handlers that a worker registers. -/
inductive WorkerHandler
  | requestIn
  | gossipIn
  deriving DecidableEq, Repr

/-- Both handlers are a `SocketRecv`, on the responder and on the subscriber. -/
def workerHandler : EventHandler WorkerHandler where
  isOneOff _ := false
  getPollitem
    | .requestIn => ⟨1, 0, zmqPollin, 0⟩
    | .gossipIn => ⟨2, 0, zmqPollin, 0⟩

/-- The driver of a worker when it calls `Run`. -/
def workerDriver : Driver WorkerHandler :=
  { (({} : Driver WorkerHandler).registerEventHandler workerHandler .requestIn).registerEventHandler
      workerHandler .gossipIn with
    phase := .head }

/-- The workers with their drivers, sockets and heap. -/
structure Workers (ι : Type) where
  drivers : ThreadId → Driver WorkerHandler
  responders : ThreadId → RepSocket ι
  /-- The messages published for a subscriber that it has not received. -/
  subscribers : ThreadId → List Frame
  threads : ThreadId → State
  heap : List Allocation
  pc : ThreadId → ReceiverPc
  readsAfterDelete : List (ThreadId × ℕ)
  /-- The workers for which a call on their responder has failed. -/
  efsm : List ThreadId
  /-- All requests that have arrived at a responder. -/
  arrivals : ThreadId → List (ι × List Bytes × Bytes)
  /-- The requests processed, with their return addresses. -/
  served : List (ι × Served)

/-- A step: a request of `c` reaches the responder of worker `i`; or worker `i` polls, goes
on in its driver, where `n` is the message that its subscriber receives if it does; takes its
next step in `receive_gossip`; or returns from a handler. -/
inductive WorkerAction (ι : Type)
  | arrive (i : ThreadId) (c : ι) (init : List Bytes) (last : Bytes)
  | poll (i : ThreadId) (revents : List (BitVec 16))
  | turn (i : ThreadId) (n : ℕ)
  | next (i : ThreadId)
  | handlerReturns (i : ThreadId)

namespace Workers

variable {ι : Type} (w : Wire)

/-- The driver of worker `i` goes on. -/
def drive (s : Workers ι) (i : ThreadId) (d : Driver WorkerHandler) : Workers ι :=
  { s with drivers := Function.update s.drivers i d }

/-- `send_gossip` of worker `i`, from the allocation on. -/
def sendGossip (s : Workers ι) (i : ThreadId) : Option Database → Workers ι
  | none => s
  | some db =>
      { s with
        heap := s.heap ++ [{ data := ⟨db, 0⟩, src := i }]
        subscribers := fun j =>
          if j ∈ others i then s.subscribers j ++ [⟨w.pointerToMessage s.heap.length, false⟩]
          else s.subscribers j }

/-- The `Run` of the handler on the responder: `to_request`, `handle_request`, `to_message`
and `request_out`. -/
def requestIn (s : Workers ι) (i : ThreadId) : Option (Workers ι) :=
  match (s.responders i).recvEnvelopedMsg with
  | .error .efsm => some { s with efsm := s.efsm ++ [i] }
  | .error (.recv _) => none
  | .ok (env, socket) =>
      let request := w.parseFromString env.msg
      match processRequest request (s.threads i) with
      | .error _ => none
      | .ok (response, state, published) =>
          let s := { s with threads := Function.update s.threads i state }.sendGossip w i published
          match socket.sendEnvelopedMsg ⟨.empty, w.serializeToString response⟩ with
          | .error _ => some { s with efsm := s.efsm ++ [i] }
          | .ok responder =>
              some { s with
                responders := Function.update s.responders i responder
                served := s.served ++
                  socket.answering.toList.map fun c => (c, ⟨i, request, response⟩) }

/-- The `Run` of the handler on the subscriber, up to the call of `receive_gossip`. -/
def gossipIn (s : Workers ι) (i : ThreadId) (n : ℕ) : Option (Workers ι) :=
  match (s.subscribers i)[n]? with
  | none => none
  | some frame =>
      match recvEnvelopedMsg [frame] with
      | .error _ => none
      | .ok (env, _) =>
          some { s with
            subscribers := Function.update s.subscribers i ((s.subscribers i).eraseIdx n)
            pc := Function.update s.pc i (.joining (w.messageToPointer env.msg)) }

/-- The memory of the workers, without what is on its way. -/
def memory (s : Workers ι) : GossipHeap :=
  ⟨s.threads, s.heap, [], s.pc, s.readsAfterDelete⟩

/-- The memory is now that of `m`. -/
def withMemory (s : Workers ι) (m : GossipHeap) : Workers ι :=
  { s with
    threads := m.threads
    heap := m.heap
    pc := m.pc
    readsAfterDelete := m.readsAfterDelete }

/-- The driver has turned to `d`, which may be in the `Run` of a handler. -/
def turned (s : Workers ι) (i : ThreadId) (n : ℕ) (d : Driver WorkerHandler) :
    Option (Workers ι) :=
  match d.runningHandler with
  | none => some (s.drive i d)
  | some .requestIn => (s.drive i d).requestIn w i
  | some .gossipIn => (s.drive i d).gossipIn w i n

/-- A request reaches a responder. -/
def arrive (s : Workers ι) (i : ThreadId) (request : ι × List Bytes × Bytes) : Workers ι :=
  { s with
    responders := Function.update s.responders i
      { s.responders i with arrived := (s.responders i).arrived ++ [request] }
    arrivals := Function.update s.arrivals i (s.arrivals i ++ [request]) }

end Workers

/-- The machine of the four workers from their calls of `Run` on. All of them have subscribed
then, and every address that is published is delivered to each of the others once. -/
def workers (ι : Type) (w : Wire) : Machine (Workers ι) (WorkerAction ι) where
  init :=
    { drivers := fun _ => workerDriver
      responders := fun _ => {}
      subscribers := fun _ => []
      threads := cluster.init.threads
      heap := []
      pc := fun _ => .idle
      readsAfterDelete := []
      efsm := []
      arrivals := fun _ => []
      served := [] }
  step s
    | .arrive i c init last => some (s.arrive i (c, init, last))
    | .poll i revents =>
        ((driver workerHandler).step (s.drivers i) (.poll revents)).map (s.drive i)
    | .turn i n => ((driver workerHandler).step (s.drivers i) .turn).bind (s.turned w i n)
    | .next i => (s.memory.next i).map s.withMemory
    | .handlerReturns i =>
        if s.pc i = .idle then
          ((driver workerHandler).step (s.drivers i) .handlerReturns).map (s.drive i)
        else none

/-! ### What the handlers do -/

section Handlers

variable {ι : Type} {w : Wire} {s s' : Workers ι} {i : ThreadId} {n : ℕ}

/-- Worker `i` has answered the request of `c`, which was the first one to wait. -/
def Workers.answered (w : Wire) (s : Workers ι) (i : ThreadId) (c : ι)
    (arrived : List (ι × List Bytes × Bytes)) (request : Request) (response : Response)
    (state : State) (published : Option Database) : Workers ι :=
  { { s with threads := Function.update s.threads i state }.sendGossip w i published with
    responders := Function.update s.responders i
      { s.responders i with
        arrived := arrived
        sent := (s.responders i).sent ++ [(c, wire [] (w.serializeToString response))] }
    served := s.served ++ [(c, ⟨i, request, response⟩)] }

/-- Worker `i` has received the address in `frame`, the message at position `n`. -/
def Workers.received (w : Wire) (s : Workers ι) (i : ThreadId) (n : ℕ) (frame : Frame) :
    Workers ι :=
  { s with
    subscribers := Function.update s.subscribers i ((s.subscribers i).eraseIdx n)
    pc := Function.update s.pc i (.joining (w.messageToPointer frame.data)) }

section SendGossip

variable (s) (published : Option Database)

@[simp] theorem Workers.sendGossip_drivers :
    (s.sendGossip w i published).drivers = s.drivers := by
  cases published <;> rfl

@[simp] theorem Workers.sendGossip_responders :
    (s.sendGossip w i published).responders = s.responders := by
  cases published <;> rfl

@[simp] theorem Workers.sendGossip_threads :
    (s.sendGossip w i published).threads = s.threads := by
  cases published <;> rfl

@[simp] theorem Workers.sendGossip_pc : (s.sendGossip w i published).pc = s.pc := by
  cases published <;> rfl

@[simp] theorem Workers.sendGossip_readsAfterDelete :
    (s.sendGossip w i published).readsAfterDelete = s.readsAfterDelete := by
  cases published <;> rfl

@[simp] theorem Workers.sendGossip_efsm : (s.sendGossip w i published).efsm = s.efsm := by
  cases published <;> rfl

@[simp] theorem Workers.sendGossip_arrivals :
    (s.sendGossip w i published).arrivals = s.arrivals := by
  cases published <;> rfl

@[simp] theorem Workers.sendGossip_served :
    (s.sendGossip w i published).served = s.served := by
  cases published <;> rfl

end SendGossip

/-- A responder that owes no reply receives the first request that waits. -/
theorem RepSocket.recvEnvelopedMsg_cons {socket : RepSocket ι} {c : ι} {init : List Bytes}
    {last : Bytes} {arrived : List (ι × List Bytes × Bytes)} (hans : socket.answering = none)
    (harr : socket.arrived = (c, init, last) :: arrived) :
    socket.recvEnvelopedMsg =
      .ok (⟨⟨init⟩, last⟩, { socket with arrived := arrived, answering := some c }) := by
  have hwire := LatticeFlow.recvEnvelopedMsg_wire init last []
  rw [List.append_nil] at hwire
  simp only [RepSocket.recvEnvelopedMsg, hans, harr, hwire]

/-- **The handler on the responder** answers the first request that waits. -/
theorem Workers.requestIn_eq_some (hans : (s.responders i).answering = none)
    (h : s.requestIn w i = some s') :
    ∃ c init last arrived response state published,
      (s.responders i).arrived = (c, init, last) :: arrived ∧
      processRequest (w.parseFromString last) (s.threads i) = .ok (response, state, published) ∧
      s' = s.answered w i c arrived (w.parseFromString last) response state published := by
  cases harr : (s.responders i).arrived with
  | nil =>
      simp only [Workers.requestIn, RepSocket.recvEnvelopedMsg, hans, harr] at h
      cases h
  | cons m arrived =>
      obtain ⟨c, init, last⟩ := m
      simp only [Workers.requestIn, RepSocket.recvEnvelopedMsg_cons hans harr] at h
      split at h
      · cases h
      · rename_i response state published hproc
        refine ⟨c, init, last, arrived, response, state, published, rfl, hproc, ?_⟩
        simp only [RepSocket.sendEnvelopedMsg, sendEnvelopedMsg_eq, List.nil_append] at h
        rw [← Option.some.inj h, Workers.answered, Workers.sendGossip_responders,
          Workers.sendGossip_served]
        simp only [hans]
        rfl

/-- **The handler on the subscriber** receives one of the addresses. -/
theorem Workers.gossipIn_eq_some (h : s.gossipIn w i n = some s') :
    ∃ frame, (s.subscribers i)[n]? = some frame ∧ s' = s.received w i n frame := by
  simp only [Workers.gossipIn] at h
  split at h
  · cases h
  · rename_i frame hframe
    split at h
    · cases h
    · rename_i env rest hrecv
      have hwire := recvEnvelopedMsg_eq_ok hrecv
      have hdata : env.msg = frame.data := by
        obtain ⟨⟨init⟩, msg⟩ := env
        cases init with
        | nil => simp_all [wire]
        | cons x init => simp [wire] at hwire
      refine ⟨frame, hframe, ?_⟩
      rw [← Option.some.inj h, hdata]
      rfl

end Handlers

/-! ### Steps -/

section Steps

variable {ι : Type} {w : Wire} {s s' : Workers ι}

/-- No responder owes a reply between two steps, and a worker outside of a handler is outside
of `receive_gossip`. -/
structure WorkersInv (s : Workers ι) : Prop where
  driver : ∀ i, (driver workerHandler).Reachable (s.drivers i)
  answering : ∀ i, (s.responders i).answering = none
  idle : ∀ i, (s.drivers i).runningHandler = none → s.pc i = .idle

/-- What a step of the workers can be. -/
inductive WorkersStep (w : Wire) (s : Workers ι) : Workers ι → Prop
  /-- A request arrives. -/
  | arrive (i : ThreadId) (request : ι × List Bytes × Bytes) : WorkersStep w s (s.arrive i request)
  /-- A worker goes on in its driver, outside of its handlers. -/
  | drive {i : ThreadId} {a : DriverAction WorkerHandler} {d : Driver WorkerHandler}
      (hd : (driver workerHandler).step (s.drivers i) a = some d) (hidle : s.pc i = .idle) :
      WorkersStep w s (s.drive i d)
  /-- A worker answers a request. -/
  | answer {i : ThreadId} {d : Driver WorkerHandler} {c : ι} {init : List Bytes} {last : Bytes}
      {arrived : List (ι × List Bytes × Bytes)} {response : Response} {state : State}
      {published : Option Database}
      (hd : (driver workerHandler).step (s.drivers i) .turn = some d) (hidle : s.pc i = .idle)
      (harr : (s.responders i).arrived = (c, init, last) :: arrived)
      (hproc : processRequest (w.parseFromString last) (s.threads i) =
        .ok (response, state, published)) :
      WorkersStep w s
        ((s.drive i d).answered w i c arrived (w.parseFromString last) response state published)
  /-- A worker receives an address. -/
  | receive {i : ThreadId} {d : Driver WorkerHandler} {n : ℕ} {frame : Frame}
      (hd : (driver workerHandler).step (s.drivers i) .turn = some d)
      (hrun : d.runningHandler = some .gossipIn) (hidle : s.pc i = .idle)
      (hn : (s.subscribers i)[n]? = some frame) :
      WorkersStep w s ((s.drive i d).received w i n frame)
  /-- A worker goes on in `receive_gossip`. -/
  | next {i : ThreadId} {m : GossipHeap} (hm : s.memory.next i = some m) :
      WorkersStep w s (s.withMemory m)

/-- **What a step does**, for all of them. -/
theorem workersStep_of_step (hinv : WorkersInv s) {a : WorkerAction ι}
    (h : (workers ι w).step s a = some s') : WorkersStep w s s' := by
  cases a with
  | arrive i c init last =>
      cases h
      exact .arrive i (c, init, last)
  | poll i revents =>
      obtain ⟨d, hd, rfl⟩ := Option.map_eq_some_iff.mp h
      refine .drive hd (hinv.idle i ?_)
      obtain ⟨_, ⟨⟩, -⟩ | ⟨⟨⟩, -⟩ | ⟨_, -, hphase, -⟩ | ⟨_, ⟨⟩, -⟩ | ⟨_, _, ⟨⟩, -⟩ :=
        driver_step_cases hd
      simp [Driver.runningHandler, hphase]
  | turn i n =>
      obtain ⟨d, hd, hturned⟩ := Option.bind_eq_some_iff.mp h
      have hidle : s.pc i = .idle := by
        refine hinv.idle i ?_
        obtain ⟨_, ⟨⟩, -⟩ | ⟨⟨⟩, -⟩ | ⟨_, ⟨⟩, -⟩ | ⟨_, -, hphase, -⟩ | ⟨_, _, ⟨⟩, -⟩ :=
          driver_step_cases hd
        simp [Driver.runningHandler, hphase]
      simp only [Workers.turned] at hturned
      split at hturned
      · cases hturned
        exact .drive hd hidle
      · obtain ⟨c, init, last, arrived, response, state, published, harr, hproc, rfl⟩ :=
          Workers.requestIn_eq_some (s := s.drive i d) (hinv.answering i) hturned
        exact .answer hd hidle harr hproc
      · rename_i hrun
        obtain ⟨frame, hn, rfl⟩ := Workers.gossipIn_eq_some hturned
        exact .receive hd hrun hidle hn
  | next i =>
      obtain ⟨m, hm, rfl⟩ := Option.map_eq_some_iff.mp h
      exact .next hm
  | handlerReturns i =>
      simp only [workers] at h
      split_ifs at h with hidle
      obtain ⟨d, hd, rfl⟩ := Option.map_eq_some_iff.mp h
      exact .drive hd hidle

/-- The next step of `receive_gossip` moves the thread that takes it. -/
theorem GossipHeap.next_pc {m m' : GossipHeap} {i : ThreadId} (h : m.next i = some m') :
    m.pc i ≠ .idle ∧ ∀ j, j ≠ i → m'.pc j = m.pc j := by
  simp only [GossipHeap.next] at h
  cases hpc : m.pc i with
  | idle =>
      rw [hpc] at h
      cases h
  | joining p =>
      simp only [hpc] at h
      obtain ⟨a, -, rfl⟩ := Option.map_eq_some_iff.mp h
      exact ⟨by simp, fun j hj => Function.update_of_ne hj _ _⟩
  | counting p =>
      simp only [hpc] at h
      obtain ⟨a, -, rfl⟩ := Option.map_eq_some_iff.mp h
      exact ⟨by simp, fun j hj => Function.update_of_ne hj _ _⟩
  | deleting p =>
      simp only [hpc] at h
      obtain ⟨a, -, rfl⟩ := Option.map_eq_some_iff.mp h
      exact ⟨by simp, fun j hj => Function.update_of_ne hj _ _⟩

/-- A request leaves the responders without a debt. -/
theorem WorkersInv.update_responder (hinv : WorkersInv s) {i : ThreadId} {r : RepSocket ι}
    (hr : r.answering = none) :
    ∀ j, (Function.update s.responders i r j).answering = none :=
  (Function.forall_update_iff s.responders fun _ r => r.answering = none).mpr
    ⟨hr, fun j _ => hinv.answering j⟩

/-- A step of one driver keeps all of them reachable. -/
theorem WorkersInv.update_driver (hinv : WorkersInv s) {i : ThreadId}
    {a : DriverAction WorkerHandler} {d : Driver WorkerHandler}
    (hd : (LatticeFlow.driver workerHandler).step (s.drivers i) a = some d) :
    ∀ j, (LatticeFlow.driver workerHandler).Reachable (Function.update s.drivers i d j) :=
  (Function.forall_update_iff s.drivers fun _ d =>
    (LatticeFlow.driver workerHandler).Reachable d).mpr
    ⟨(hinv.driver i).step hd, fun j _ => hinv.driver j⟩

/-- The driver of a worker that is outside of `receive_gossip` moves. -/
theorem WorkersInv.idle_update_driver (hinv : WorkersInv s) {i : ThreadId}
    (hidle : s.pc i = .idle) (d : Driver WorkerHandler) (j : ThreadId)
    (hj : (Function.update s.drivers i d j).runningHandler = none) : s.pc j = .idle := by
  by_cases hji : j = i
  · rw [hji, hidle]
  · rw [Function.update_of_ne hji] at hj
    exact hinv.idle j hj

/-- **A step keeps the invariant**. -/
theorem workersInv_step (hinv : WorkersInv s) (h : WorkersStep w s s') : WorkersInv s' := by
  cases h with
  | arrive i request =>
      exact ⟨hinv.driver, hinv.update_responder (hinv.answering i), hinv.idle⟩
  | drive hd hidle =>
      exact ⟨hinv.update_driver hd, hinv.answering, hinv.idle_update_driver hidle _⟩
  | @answer i d c init last arrived response state published hd hidle harr hproc =>
      refine ⟨?_, ?_, ?_⟩
      · simpa [Workers.answered, Workers.drive] using hinv.update_driver hd
      · exact hinv.update_responder (hinv.answering i)
      · simpa [Workers.answered, Workers.drive] using hinv.idle_update_driver hidle d
  | @receive i d n frame hd hrun hidle hn =>
      refine ⟨hinv.update_driver hd, hinv.answering, fun j hj => ?_⟩
      by_cases hji : j = i
      · subst hji
        simp [Workers.received, Workers.drive, hrun] at hj
      · simp only [Workers.received, Workers.drive, Function.update_of_ne hji] at hj ⊢
        exact hinv.idle j hj
  | @next i m hm =>
      obtain ⟨hne, hother⟩ := GossipHeap.next_pc hm
      refine ⟨hinv.driver, hinv.answering, fun j hj => ?_⟩
      have hidle := hinv.idle j hj
      have hji : j ≠ i := by
        rintro rfl
        exact hne hidle
      exact (hother j hji).trans hidle

/-- It holds in every state of every run. -/
theorem workersInv_of_reachable (h : (workers ι w).Reachable s) : WorkersInv s := by
  have hdriver : (driver workerHandler).run (driver workerHandler).init
      [.register .requestIn, .register .gossipIn, .callRun] = some workerDriver := rfl
  refine h.invariant ⟨fun _ => Machine.reachable_of_run hdriver, fun _ => rfl, fun _ _ => rfl⟩ ?_
  intro s a s' _ hinv hs
  exact workersInv_step hinv (workersStep_of_step hinv hs)

end Steps

/-! ### The heap of the workers -/

section Heap

variable {ι : Type} {w : Wire} {s s' : Workers ι} {t : GossipHeap}

/-- The addresses published for the subscriber of worker `j` that it has not received. -/
def Workers.addresses (w : Wire) (s : Workers ι) (j : ThreadId) : List ℕ :=
  (s.subscribers j).map fun frame => w.messageToPointer frame.data

/-- The memory is that of the threads with their heap, and what waits at the subscribers is
what is in flight. -/
structure Workers.Refines (w : Wire) (s : Workers ι) (t : GossipHeap) : Prop where
  memory : { t with inFlight := [] } = s.memory
  inFlight : ∀ j p, t.inFlight.count (j, p) = (s.addresses w j).count p

namespace Workers.Refines

/-- The threads are the same. -/
theorem threads (h : s.Refines w t) : t.threads = s.threads :=
  congrArg GossipHeap.threads h.memory

/-- So is the heap. -/
theorem heap (h : s.Refines w t) : t.heap = s.heap :=
  congrArg GossipHeap.heap h.memory

/-- So is where each thread is. -/
theorem pc (h : s.Refines w t) : t.pc = s.pc :=
  congrArg GossipHeap.pc h.memory

/-- And so are the reads of deleted messages. -/
theorem readsAfterDelete (h : s.Refines w t) : t.readsAfterDelete = s.readsAfterDelete :=
  congrArg GossipHeap.readsAfterDelete h.memory

end Workers.Refines

/-- What is in flight does not matter to `receive_gossip`. -/
theorem GossipHeap.next_inFlight (m : GossipHeap) (l : List (ThreadId × ℕ)) (i : ThreadId) :
    ({ m with inFlight := l } : GossipHeap).next i =
      (m.next i).map fun m' => { m' with inFlight := l } := by
  simp only [GossipHeap.next]
  split <;> simp [Function.comp_def]

/-- Nothing is put in flight in `receive_gossip`. -/
theorem GossipHeap.inFlight_of_next {m m' : GossipHeap} {i : ThreadId}
    (h : m.next i = some m') : m'.inFlight = m.inFlight := by
  have hsame : ({ m with inFlight := m.inFlight } : GossipHeap).next i = some m' := h
  rw [GossipHeap.next_inFlight, h] at hsame
  exact (congrArg GossipHeap.inFlight (Option.some.inj hsame)).symm

/-- The step of `receive_gossip`. -/
theorem Workers.Refines.next (hR : s.Refines w t) {i : ThreadId} {m : GossipHeap}
    (hm : s.memory.next i = some m) :
    ∃ t', t.next i = some t' ∧ (s.withMemory m).Refines w t' := by
  have hnext := GossipHeap.next_inFlight t [] i
  rw [hR.memory, hm] at hnext
  obtain ⟨t', ht', hmem⟩ := Option.map_eq_some_iff.mp hnext.symm
  refine ⟨t', ht', ?_, ?_⟩
  · rw [hmem]
    have hnone := GossipHeap.inFlight_of_next hm
    obtain ⟨threads, heap, inFlight, pc, reads⟩ := m
    obtain rfl : inFlight = [] := hnone
    rfl
  · rw [GossipHeap.inFlight_of_next ht']
    exact hR.inFlight

/-- A publication puts its address at every other subscriber. -/
theorem Workers.addresses_sendGossip (s : Workers ι) (i j : ThreadId) (db : Database) (p : ℕ) :
    ((s.sendGossip w i (some db)).addresses w j).count p =
      (s.addresses w j).count p + if p = s.heap.length ∧ j ≠ i then 1 else 0 := by
  simp only [Workers.addresses, Workers.sendGossip, mem_others]
  by_cases hj : j = i
  · simp [hj]
  · simp [hj, w.pointer_roundTrip, List.count_singleton, eq_comm (a := p)]

/-- The request is a request of the thread with the heap. -/
theorem Workers.Refines.answer (hR : s.Refines w t) {i : ThreadId} (hidle : s.pc i = .idle)
    (c : ι) (arrived : List (ι × List Bytes × Bytes)) {request : Request} {response : Response}
    {state : State} {published : Option Database}
    (hproc : processRequest request (s.threads i) = .ok (response, state, published)) :
    ∃ t', t.request i request = some t' ∧
      (s.answered w i c arrived request response state published).Refines w t' := by
  have hpc : ¬ t.pc i ≠ .idle := by simp [hR.pc, hidle]
  rw [← hR.threads] at hproc
  cases published with
  | none =>
      refine ⟨{ t with threads := Function.update t.threads i state },
        by simp only [GossipHeap.request, if_neg hpc, hproc], ?_, hR.inFlight⟩
      simp only [Workers.answered, Workers.sendGossip, Workers.memory, hR.threads, hR.heap, hR.pc,
        hR.readsAfterDelete]
  | some db =>
      refine ⟨GossipHeap.send { t with threads := Function.update t.threads i state } i db,
        by simp only [GossipHeap.request, if_neg hpc, hproc], ?_, fun j p => ?_⟩
      · simp only [Workers.answered, Workers.sendGossip, Workers.memory, GossipHeap.send,
          hR.threads, hR.heap, hR.pc, hR.readsAfterDelete]
      · have hsent := Workers.addresses_sendGossip (w := w)
          { s with threads := Function.update s.threads i state } i j db p
        rw [GossipHeap.send, List.count_append, count_map_others, hR.inFlight j p]
        simp only [hR.heap]
        exact hsent.symm

/-- The receipt of an address is a receipt. -/
theorem Workers.Refines.receive (hR : s.Refines w t) {i : ThreadId} (hidle : s.pc i = .idle)
    {n : ℕ} {frame : Frame} (hn : (s.subscribers i)[n]? = some frame) :
    ∃ m t', t.receive m = some t' ∧ (s.received w i n frame).Refines w t' := by
  set p := w.messageToPointer frame.data with hp
  have hperm : (p :: (s.received w i n frame).addresses w i).Perm (s.addresses w i) := by
    have hmap := (cons_eraseIdx_perm hn).map fun frame => w.messageToPointer frame.data
    simpa [Workers.addresses, Workers.received] using hmap
  have hmem : (i, p) ∈ t.inFlight := by
    rw [← List.count_pos_iff, hR.inFlight, ← hperm.count_eq]
    simp
  obtain ⟨m, hm⟩ := List.mem_iff_getElem?.mp hmem
  have hpc : ¬ t.pc i ≠ .idle := by simp [hR.pc, hidle]
  refine ⟨m, _, by simp only [GossipHeap.receive, hm, if_neg hpc]; rfl, ?_, fun j q => ?_⟩
  · simp only [Workers.received, Workers.memory, hR.threads, hR.heap, hR.pc, hR.readsAfterDelete,
      ← hp]
  · change (t.inFlight.eraseIdx m).count (j, q) = _
    have hcount := (cons_eraseIdx_perm hm).count_eq (j, q)
    rw [hR.inFlight, List.count_cons] at hcount
    by_cases hj : j = i
    · subst hj
      have hleft := hperm.count_eq q
      rw [List.count_cons] at hleft
      simp only [beq_iff_eq, Prod.mk.injEq, true_and] at hcount hleft
      omega
    · have hsame : (s.received w i n frame).addresses w j = s.addresses w j := by
        simp [Workers.addresses, Workers.received, Function.update_of_ne hj]
      simp only [beq_iff_eq, Prod.mk.injEq, Ne.symm hj, false_and, if_false] at hcount
      rw [hsame]
      omega

/-- **A step of the workers** is a step of the threads with their heap or none. -/
theorem Workers.Refines.step (hR : s.Refines w t) (h : WorkersStep w s s') :
    (s'.Refines w t ∧ s'.served = s.served) ∨
    (∃ i request c response t', t.request i request = some t' ∧ s'.Refines w t' ∧
      s'.served = s.served ++ [(c, ⟨i, request, response⟩)]) ∨
    (∃ n t', t.receive n = some t' ∧ s'.Refines w t' ∧ s'.served = s.served) ∨
    ∃ i t', t.next i = some t' ∧ s'.Refines w t' ∧ s'.served = s.served := by
  cases h with
  | arrive i request => exact .inl ⟨⟨hR.memory, hR.inFlight⟩, rfl⟩
  | drive hd hidle => exact .inl ⟨⟨hR.memory, hR.inFlight⟩, rfl⟩
  | @answer i d c init last arrived response state published hd hidle harr hproc =>
      have hdrive : (s.drive i d).Refines w t := ⟨hR.memory, hR.inFlight⟩
      obtain ⟨t', ht', hR'⟩ := hdrive.answer hidle c arrived hproc
      exact .inr (.inl ⟨i, _, c, response, t', ht', hR', rfl⟩)
  | @receive i d n frame hd hrun hidle hn =>
      have hdrive : (s.drive i d).Refines w t := ⟨hR.memory, hR.inFlight⟩
      obtain ⟨m, t', ht', hR'⟩ := hdrive.receive hidle hn
      exact .inr (.inr (.inl ⟨m, t', ht', hR', rfl⟩))
  | @next i m hm =>
      obtain ⟨t', ht', hR'⟩ := hR.next hm
      exact .inr (.inr (.inr ⟨i, t', ht', hR', rfl⟩))

/-- **The workers refine the threads with their heap.** -/
theorem workers_refine_heap (h : (workers ι w).Reachable s) :
    ∃ t, gossipHeap.Reachable t ∧ s.Refines w t := by
  refine h.simulate ⟨rfl, fun _ _ => rfl⟩ fun s t a s' hs hR hstep => ?_
  obtain ⟨hR', -⟩ | ⟨i, request, _, _, t', ht', hR', -⟩ | ⟨n, t', ht', hR', -⟩ |
    ⟨i, t', ht', hR', -⟩ := hR.step (workersStep_of_step (workersInv_of_reachable hs) hstep)
  · exact .inl hR'
  · exact .inr ⟨.request i request, t', ht', hR'⟩
  · exact .inr ⟨.receive n, t', ht', hR'⟩
  · exact .inr ⟨.next i, t', ht', hR'⟩

/-- The entries that the workers have accepted, with the workers. -/
def Workers.accepted (s : Workers ι) : List (ThreadId × Bytes × TimestampedStringLattice) :=
  s.served.flatMap fun e => (acceptedEntries e.2.request).map fun x => (e.2.thread, x)

/-- **The workers refine the cluster**, which has accepted what they have accepted. -/
theorem workers_refine_cluster (h : (workers ι w).Reachable s) :
    ∃ c, cluster.Reachable c ∧ (∃ t, gossipHeap.Reachable t ∧ s.Refines w t ∧ Refines t c) ∧
      c.accepted = s.accepted := by
  refine h.simulate (R := fun s c =>
    (∃ t, gossipHeap.Reachable t ∧ s.Refines w t ∧ Refines t c) ∧ c.accepted = s.accepted)
    ⟨⟨gossipHeap.init, Machine.Reachable.init, ⟨rfl, fun _ _ => rfl⟩, rfl, List.Perm.refl _⟩, rfl⟩
    fun s c a s' hs hR hstep => ?_
  obtain ⟨⟨t, ht, hst, htc⟩, hacc⟩ := hR
  have hinv := lifetimeInv_of_reachable ht
  have hkeep : s'.served = s.served → c.accepted = s'.accepted := by
    intro hserved
    rw [hacc, Workers.accepted, Workers.accepted, hserved]
  obtain ⟨hR', hserved⟩ | ⟨i, request, x, response, t', ht', hR', hserved⟩ |
    ⟨n, t', ht', hR', hserved⟩ | ⟨i, t', ht', hR', hserved⟩ :=
      hst.step (workersStep_of_step (workersInv_of_reachable hs) hstep)
  · exact .inl ⟨⟨t, ht, hR', htc⟩, hkeep hserved⟩
  · obtain ⟨c', hc', htc', hacc'⟩ := refines_request hinv htc ht'
    have hreach : gossipHeap.Reachable t' := ht.step (a := .request i request) ht'
    refine .inr ⟨_, c', hc', ⟨t', hreach, hR', htc'⟩, ?_⟩
    rw [hacc', hacc, Workers.accepted, Workers.accepted, hserved]
    simp
  · have hreach : gossipHeap.Reachable t' := ht.step (a := .receive n) ht'
    exact .inl ⟨⟨t', hreach, hR', refines_receive htc ht'⟩, hkeep hserved⟩
  · have hreach : gossipHeap.Reachable t' := ht.step (a := .next i) ht'
    rcases refines_next hinv htc ht' with htc' | ⟨n, c', hc', htc', hacc'⟩
    · exact .inl ⟨⟨t', hreach, hR', htc'⟩, hkeep hserved⟩
    · exact .inr ⟨_, c', hc', ⟨t', hreach, hR', htc'⟩, hacc'.trans (hkeep hserved)⟩

end Heap

/-! ### A run -/

/-- The bytes of a number, the lowest ones first, eight of them if these suffice. -/
def littleEndian (p : ℕ) : Bytes :=
  (Nat.digits 256 p ++ List.replicate (8 - (Nat.digits 256 p).length) 0).map (Fin.ofNat 256)

/-- An address is read back from its bytes. -/
theorem ofDigits_littleEndian (p : ℕ) :
    Nat.ofDigits 256 ((littleEndian p).map Fin.val) = p := by
  have hbytes : (littleEndian p).map Fin.val =
      Nat.digits 256 p ++ List.replicate (8 - (Nat.digits 256 p).length) 0 := by
    rw [littleEndian, List.map_map]
    refine (List.map_congr_left fun d hd => ?_).trans (List.map_id _)
    refine Nat.mod_eq_of_lt ?_
    rcases List.mem_append.mp hd with hd | hd
    · exact Nat.digits_lt_base (by omega) hd
    · rw [List.eq_of_mem_replicate hd]
      omega
  rw [hbytes, Nat.ofDigits_append, Nat.ofDigits_replicate_zero, Nat.ofDigits_digits]
  omega

/-- The encodings of `PUT(7, "k", "v")` and `GET("k")` and of the responses to them. -/
def putAndGetWire : Wire where
  parseFromString
    | [26, 10, 8, 7, 18, 6, 10, 1, 107, 18, 1, 118] => .put 7 [⟨[107], [118]⟩]
    | [18, 3, 10, 1, 107] => .get [107]
    | _ => .notSet
  serializeToString response :=
    (response.succeed.toList.flatMap fun b => [8, if b then 1 else 0]) ++
      (response.value.toList.flatMap fun v => 18 :: Fin.ofNat 256 v.length :: v) ++
      response.timestamp.toList.flatMap fun t => [24, Fin.ofNat 256 t.toInt.toNat]
  pointerToMessage := littleEndian
  messageToPointer b := Nat.ofDigits 256 (b.map Fin.val)
  pointer_roundTrip := ofDigits_littleEndian

/-- Worker `j` receives the first address. -/
def receiveFirst (j : ThreadId) : List (WorkerAction ℕ) :=
  [.poll j [0, 1], .turn j 0, .turn j 0, .next j, .next j, .handlerReturns j]

/-- A client puts a value at worker `0`, all workers receive it, and another client reads it at
worker `3`, twice. -/
def putAndGet : List (WorkerAction ℕ) :=
  [.arrive 0 11 [] [26, 10, 8, 7, 18, 6, 10, 1, 107, 18, 1, 118], .poll 0 [1, 0], .turn 0 0,
    .handlerReturns 0] ++ receiveFirst 1 ++ receiveFirst 2 ++ receiveFirst 3 ++
  [.arrive 3 12 [] [18, 3, 10, 1, 107], .arrive 3 12 [] [18, 3, 10, 1, 107], .turn 3 0,
    .poll 3 [1, 0], .turn 3 0, .handlerReturns 3]

/-! ### Convergence -/

section Converge

variable {ι : Type} {w : Wire} {s : Workers ι} {t : GossipHeap} {c : Cluster}

/-- Worker `j` has joined everything that has been published for it. -/
def Workers.Drained (s : Workers ι) (j : ThreadId) : Prop :=
  s.subscribers j = [] ∧ ∀ p, s.pc j ≠ .joining p

/-- No message is on its way to a worker that has joined everything. -/
theorem Workers.Refines.dst_ne_of_drained (hR : s.Refines w t) {j : ThreadId}
    (hj : s.Drained j) : ∀ g ∈ t.messages, g.dst ≠ j := by
  rintro g hg rfl
  obtain ⟨⟨k, p⟩, hmem, hderef⟩ := List.mem_filterMap.mp hg
  obtain ⟨a, -, rfl⟩ := Option.map_eq_some_iff.mp hderef
  obtain ⟨hnone, hpc⟩ := hj
  rcases List.mem_append.mp hmem with hflight | hhand
  · have hpos := List.count_pos_iff.mpr hflight
    rw [hR.inFlight, Workers.addresses, hnone] at hpos
    simp at hpos
  · obtain ⟨l, -, hl⟩ := List.mem_filterMap.mp hhand
    obtain ⟨q, hq, heq⟩ := Option.map_eq_some_iff.mp hl
    obtain ⟨rfl, rfl⟩ := Prod.mk.inj heq
    rw [hR.pc] at hq
    cases hpcl : s.pc l with
    | joining q' => exact hpc q' hpcl
    | _ => simp [hpcl, ReceiverPc.unread] at hq

/-- An entry that a thread has accepted is in the database of a thread to which nothing is on
its way from there. -/
theorem exists_le_get?_of_accepted (h : cluster.Reachable c) {i j : ThreadId} {k : Bytes}
    {e : TimestampedStringLattice} (he : (i, k, e) ∈ c.accepted) (hnone : c.between i j = []) :
    ∃ e', (c.threads j).kvs.get? k = some e' ∧ Lattice.le e e' = true := by
  have hinv := Replicas.inv_of_reachable (fun i j => mem_others.mpr) (replicas_reachable h)
  have hlog : (i, (MapLattice.empty.put k e).denote) ∈ c.denote.log :=
    List.mem_map_of_mem (f := fun e => (e.1, (MapLattice.empty.put e.2.1 e.2.2).denote)) he
  have hcov := hinv.covered i _ hlog j k
  rw [between_denote, hnone, List.map_nil, joinAll_nil, sup_bot_eq, denote_single, if_pos rfl]
    at hcov
  exact exists_le_of_toClass_le hcov

/-- With nothing in flight, every database is the join of all accepted entries. -/
theorem denote_kvs_of_inFlight_eq_nil (h : cluster.Reachable c) (hnone : c.inFlight = [])
    (j : ThreadId) : (c.threads j).kvs.denote =
      joinAll (c.accepted.map fun e => (MapLattice.empty.put e.2.1 e.2.2).denote) := by
  have hinv := Replicas.inv_of_reachable (fun i j => mem_others.mpr) (replicas_reachable h)
  have hnone' : c.denote.inFlight = [] := by simp [Cluster.denote, hnone]
  have htotal := hinv.converged hnone' j
  rw [Replicas.total, Cluster.denote, List.map_map] at htotal
  exact htotal

/-- **The databases of the workers converge.** In every reachable state, a worker that has
joined everything published for it holds everything that any worker has accepted; and if all
workers have, their databases are equal, and equal to the join of all accepted entries in
whatever order and multiplicity these are listed. -/
theorem workers_converge (h : (workers ι w).Reachable s) :
    (∀ j, s.Drained j → ∀ i k e, (i, k, e) ∈ s.accepted →
      ∃ e', (s.threads j).kvs.get? k = some e' ∧ Lattice.le e e' = true) ∧
    ((∀ j, s.Drained j) →
      (∀ i j, ((s.threads i).kvs == (s.threads j).kvs) = true) ∧
      ∀ j entries, (∀ e, e ∈ entries ↔ e ∈ s.accepted.map Prod.snd) →
        ((s.threads j).kvs == joinOfEntries entries) = true) := by
  obtain ⟨c, hc, ⟨t, ht, hst, hthreads, hperm⟩, hacc⟩ := workers_refine_cluster h
  rw [hst.threads] at hthreads
  have hdst : ∀ j, s.Drained j → ∀ g ∈ c.inFlight, g.dst ≠ j := fun j hj g hg =>
    hst.dst_ne_of_drained hj g (hperm.mem_iff.mp hg)
  refine ⟨fun j hj i k e he => ?_, fun hall => ?_⟩
  · have hnone : c.between i j = [] := by
      rw [Cluster.between, List.map_eq_nil_iff, List.filter_eq_nil_iff]
      intro g hg
      simp [hdst j hj g hg]
    rw [← hacc] at he
    rw [← hthreads]
    exact exists_le_get?_of_accepted hc he hnone
  · have hnone : c.inFlight = [] :=
      List.eq_nil_iff_forall_not_mem.mpr fun g hg => hdst g.dst (hall g.dst) g hg rfl
    have hjoin := denote_kvs_of_inFlight_eq_nil hc hnone
    rw [hthreads, hacc] at hjoin
    refine ⟨fun i j => ?_, fun j entries hes => ?_⟩
    · rw [MapLattice.beq_iff_denote, hjoin i, hjoin j]
    · rw [MapLattice.beq_iff_denote, denote_joinOfEntries, hjoin j]
      refine joinAll_eq_of_mem fun a => ?_
      simp only [List.mem_map, hes, exists_exists_and_eq_and]

end Converge

/-- After the run `putAndGet` nothing is on its way, and the databases of the workers are
equal. -/
theorem workers_converge_put_and_get : ∃ s,
    (workers ℕ putAndGetWire).run (workers ℕ putAndGetWire).init putAndGet = some s ∧
      (∀ j, s.Drained j) ∧ s.accepted.length = 1 ∧
      ((s.threads 1).kvs == (s.threads 3).kvs) = true := by
  have hrun : ((workers ℕ putAndGetWire).run (workers ℕ putAndGetWire).init putAndGet).map
      (fun s => ((List.finRange numThreads).map fun j => (s.subscribers j, s.pc j),
        s.accepted.length)) = some (List.replicate 4 ([], .idle), 1) := by decide
  obtain ⟨s, hs, heq⟩ := Option.map_eq_some_iff.mp hrun
  obtain ⟨hworkers, hlen⟩ := Prod.mk.inj heq
  have hdrained : ∀ j, s.Drained j := by
    intro j
    have hj := List.mem_map_of_mem (f := fun j => (s.subscribers j, s.pc j)) (List.mem_finRange j)
    rw [hworkers] at hj
    obtain ⟨hsub, hpc⟩ := Prod.mk.inj (List.eq_of_mem_replicate hj)
    exact ⟨hsub, by simp [hpc]⟩
  have hconverged := (workers_converge (Machine.reachable_of_run hs)).2 hdrained
  exact ⟨s, hs, hdrained, hlen, hconverged.1 1 3⟩

/-! ### Answers -/

section Answers

variable {ι : Type} {w : Wire} {s s' : Workers ι}

/-- The requests that worker `i` has answered, in order. -/
def Workers.answeredBy (s : Workers ι) (i : ThreadId) : List (ι × Served) :=
  s.served.filter (·.2.thread = i)

/-- A request as the worker reads it, with its return address. -/
def Wire.request (w : Wire) (m : ι × List Bytes × Bytes) : ι × Request :=
  (m.1, w.parseFromString m.2.2)

/-- The reply to a request. -/
def Wire.reply (w : Wire) (v : ι × Served) : ι × List Frame :=
  (v.1, wire [] (w.serializeToString v.2.response))

/-- What is promised of the responder of worker `i`. -/
structure Workers.Answers (w : Wire) (s : Workers ι) (i : ThreadId) : Prop where
  /-- What has been answered is what has arrived, without what still waits. -/
  arrivals : ∃ received, s.arrivals i = received ++ (s.responders i).arrived ∧
    received.map w.request = (s.answeredBy i).map fun v => (v.1, v.2.request)
  /-- Each answer has been sent to the sender of its request. -/
  sent : (s.responders i).sent = (s.answeredBy i).map w.reply

/-- A step that concerns another responder, or none. -/
theorem Workers.Answers.congr {i : ThreadId} (h : s.Answers w i)
    (harr : s'.arrivals i = s.arrivals i) (hresp : s'.responders i = s.responders i)
    (hans : s'.answeredBy i = s.answeredBy i) : s'.Answers w i := by
  refine ⟨?_, ?_⟩
  · rw [harr, hresp, hans]
    exact h.arrivals
  · rw [hresp, hans]
    exact h.sent

/-- A request that arrives waits behind the others. -/
theorem Workers.Answers.arrive {i : ThreadId} (h : s.Answers w i) (j : ThreadId)
    (request : ι × List Bytes × Bytes) : (s.arrive j request).Answers w i := by
  by_cases hij : i = j
  · subst hij
    obtain ⟨received, hreceived, hmap⟩ := h.arrivals
    refine ⟨⟨received, ?_, hmap⟩, ?_⟩
    · simp only [Workers.arrive, Function.update_self, hreceived, List.append_assoc]
    · simp only [Workers.arrive, Function.update_self]
      exact h.sent
  · refine h.congr ?_ ?_ rfl
    · exact Function.update_of_ne hij _ _
    · exact Function.update_of_ne hij _ _

/-- **An answer** is that to the first request that waits. -/
theorem Workers.Answers.answered {i j : ThreadId} (h : s.Answers w i) {c : ι}
    {init : List Bytes} {last : Bytes} {arrived : List (ι × List Bytes × Bytes)}
    (harr : (s.responders j).arrived = (c, init, last) :: arrived) (response : Response)
    (state : State) (published : Option Database) :
    (s.answered w j c arrived (w.parseFromString last) response state published).Answers w i := by
  set s' := s.answered w j c arrived (w.parseFromString last) response state published with hs'
  have harrivals : s'.arrivals = s.arrivals := by simp [hs', Workers.answered]
  have hserved : s'.served = s.served ++ [(c, ⟨j, w.parseFromString last, response⟩)] := rfl
  by_cases hij : i = j
  · subst hij
    have hans : s'.answeredBy i =
        s.answeredBy i ++ [(c, ⟨i, w.parseFromString last, response⟩)] := by
      rw [Workers.answeredBy, hserved, List.filter_append]
      simp [Workers.answeredBy]
    have hresp : s'.responders i =
        { s.responders i with
          arrived := arrived
          sent := (s.responders i).sent ++ [(c, wire [] (w.serializeToString response))] } :=
      Function.update_self _ _ _
    obtain ⟨received, hreceived, hmap⟩ := h.arrivals
    refine ⟨⟨received ++ [(c, init, last)], ?_, ?_⟩, ?_⟩
    · rw [harrivals, hreceived, harr, hresp, List.append_assoc]
      rfl
    · rw [hans, List.map_append, List.map_append, hmap]
      rfl
    · rw [hans, hresp, List.map_append, h.sent]
      rfl
  · refine h.congr (by rw [harrivals]) (Function.update_of_ne hij _ _) ?_
    rw [Workers.answeredBy, hserved, List.filter_append]
    simp [Workers.answeredBy, Ne.symm hij]

/-- No call on a responder has failed, and all responders answer. -/
theorem workers_answers (h : (workers ι w).Reachable s) :
    s.efsm = [] ∧ ∀ i, s.Answers w i := by
  refine h.invariant (I := fun s => s.efsm = [] ∧ ∀ i, s.Answers w i)
    ⟨rfl, fun i => ⟨⟨[], rfl, rfl⟩, rfl⟩⟩ fun s a s' hs hinv hstep => ?_
  obtain ⟨hefsm, hans⟩ := hinv
  cases workersStep_of_step (workersInv_of_reachable hs) hstep with
  | arrive i request => exact ⟨hefsm, fun j => (hans j).arrive i request⟩
  | drive hd hidle => exact ⟨hefsm, fun j => (hans j).congr rfl rfl rfl⟩
  | @answer i d c init last arrived response state published hd hidle harr hproc =>
      refine ⟨by simpa [Workers.answered, Workers.drive] using hefsm, fun j => ?_⟩
      have hdrive : (s.drive i d).Answers w j := (hans j).congr rfl rfl rfl
      exact hdrive.answered harr response state published
  | receive hd hrun hidle hn => exact ⟨hefsm, fun j => (hans j).congr rfl rfl rfl⟩
  | next hm => exact ⟨hefsm, fun j => (hans j).congr rfl rfl rfl⟩

/-- The threads with their history have done what the workers have done. -/
structure Workers.Records (s : Workers ι) (r : ServerRun) : Prop where
  threads : r.threads = s.threads
  served : r.served = s.served.map Prod.snd
  published : ∀ (p : ℕ) (a : Allocation), s.heap[p]? = some a → ∀ j, j ≠ a.src →
    ⟨a.src, j, a.data.db⟩ ∈ r.published

/-- An address in the hands of a thread is that of a message of another thread. -/
theorem LifetimeInv.ne_src {m : GossipHeap} (hinv : LifetimeInv m) {i : ThreadId} {p : ℕ}
    {a : Allocation} (hpc : m.pc i = .joining p) (ha : m.heap[p]? = some a) : i ≠ a.src := by
  intro hi
  have honce := (hinv.allocation p a ha).once i
  rw [if_pos hi] at honce
  simp [GossipHeap.pending, hpc, ReceiverPc.held] at honce

/-- The request is a request of the thread with its history. -/
theorem Workers.Records.answered {r : ServerRun} (hR : s.Records r) {i : ThreadId} (c : ι)
    (arrived : List (ι × List Bytes × Bytes)) {request : Request} {response : Response}
    {state : State} {published : Option Database}
    (hproc : processRequest request (s.threads i) = .ok (response, state, published)) :
    ∃ r', serverThreads.step r (.request i request) = some r' ∧
      (s.answered w i c arrived request response state published).Records r' := by
  rw [← hR.threads] at hproc
  refine ⟨_, serverThreads_step_request hproc, ?_, ?_, ?_⟩
  · simp [Workers.answered, hR.threads]
  · simp [Workers.answered, hR.served]
  · intro p a ha j hj
    cases published with
    | none => exact List.mem_append_left _ (hR.published p a ha j hj)
    | some db =>
        simp only [Workers.answered, Workers.sendGossip, List.getElem?_append] at ha
        split_ifs at ha with hlt
        · exact List.mem_append_left _ (hR.published p a ha j hj)
        · obtain rfl := List.mem_singleton.mp (List.mem_of_getElem? ha)
          refine List.mem_append_right _ ?_
          exact List.mem_map_of_mem (f := fun j => (⟨i, j, db⟩ : Gossip)) (mem_others.mpr hj)

/-- A step of `receive_gossip` is the receipt of a published message or none. -/
theorem Workers.Records.next {r : ServerRun} (hR : s.Records r) {t : GossipHeap}
    (hst : s.Refines w t) (hinv : LifetimeInv t) {i : ThreadId} {m : GossipHeap}
    (hm : s.memory.next i = some m) :
    (s.withMemory m).Records r ∨
      ∃ b r', serverThreads.step r b = some r' ∧ (s.withMemory m).Records r' := by
  simp only [GossipHeap.next] at hm
  cases hpc : s.memory.pc i with
  | idle =>
      rw [hpc] at hm
      cases hm
  | joining p =>
      right
      simp only [hpc] at hm
      obtain ⟨a, ha, rfl⟩ := Option.map_eq_some_iff.mp hm
      have hne : i ≠ a.src := hinv.ne_src ((congrFun hst.pc i).trans hpc) (hst.heap ▸ ha)
      have hmem := hR.published p a ha i hne
      obtain ⟨n, hn⟩ := List.mem_iff_getElem?.mp hmem
      refine ⟨.receive n, r.receive ⟨a.src, i, a.data.db⟩, by simp [serverThreads, hn], ?_,
        hR.served, hR.published⟩
      simp only [ServerRun.receive, hR.threads, Workers.withMemory, Workers.memory]
  | counting p =>
      left
      simp only [hpc] at hm
      obtain ⟨a, ha, rfl⟩ := Option.map_eq_some_iff.mp hm
      refine ⟨hR.threads, hR.served, fun q b hb j hj => ?_⟩
      have hlt : p < s.heap.length := (List.getElem?_eq_some_iff.mp ha).1
      simp only [Workers.withMemory, Workers.memory] at hb
      by_cases hq : q = p
      · subst hq
        rw [List.getElem?_set_self hlt] at hb
        cases hb
        exact hR.published q a ha j hj
      · rw [List.getElem?_set_ne (Ne.symm hq)] at hb
        exact hR.published q b hb j hj
  | deleting p => exact absurd ((congrFun hst.pc i).trans hpc) (hinv.not_deleting i p)

/-- The workers process requests as the threads with their history do. -/
theorem workers_record (h : (workers ι w).Reachable s) :
    ∃ r, serverThreads.Reachable r ∧ s.Records r := by
  refine h.simulate ⟨rfl, rfl, fun p a ha => by simp [workers] at ha⟩
    fun s r a s' hs hR hstep => ?_
  cases workersStep_of_step (workersInv_of_reachable hs) hstep with
  | arrive i request => exact .inl ⟨hR.threads, hR.served, hR.published⟩
  | drive hd hidle => exact .inl ⟨hR.threads, hR.served, hR.published⟩
  | @answer i d c init last arrived response state published hd hidle harr hproc =>
      have hdrive : (s.drive i d).Records r := ⟨hR.threads, hR.served, hR.published⟩
      obtain ⟨r', hr', hR'⟩ := hdrive.answered (w := w) c arrived hproc
      exact .inr ⟨_, r', hr', hR'⟩
  | receive hd hrun hidle hn => exact .inl ⟨hR.threads, hR.served, hR.published⟩
  | next hm =>
      obtain ⟨t, ht, hst⟩ := workers_refine_heap hs
      exact hR.next hst (lifetimeInv_of_reachable ht) hm

/-- **The workers answer in order.** In every reachable state no call on a responder has
failed; each worker has answered the requests that have arrived at its responder, but for
those that still wait, once each, in order, and to their senders; and the responses are those
of a run of the threads of `LatticeFlow.ServerHistory`. -/
theorem workers_answer_in_order (h : (workers ι w).Reachable s) :
    s.efsm = [] ∧ (∀ i, s.Answers w i) ∧
      ∃ r, serverThreads.Reachable r ∧ r.threads = s.threads ∧
        r.served = s.served.map Prod.snd := by
  obtain ⟨hefsm, hans⟩ := workers_answers h
  obtain ⟨r, hr, hR⟩ := workers_record h
  exact ⟨hefsm, hans, r, hr, hR.threads, hR.served⟩

end Answers

/-- After the run `putAndGet` worker `3` has answered the first of two requests. -/
theorem workers_answer_in_order_put_and_get : ∃ s,
    (workers ℕ putAndGetWire).run (workers ℕ putAndGetWire).init putAndGet = some s ∧
      (s.arrivals 3).length = 2 ∧ (s.responders 3).arrived.length = 1 ∧
      (s.responders 3).sent = [(12, wire [] [8, 1, 18, 1, 118, 24, 7])] ∧
      s.Answers putAndGetWire 3 := by
  have hrun : ((workers ℕ putAndGetWire).run (workers ℕ putAndGetWire).init putAndGet).map
      (fun s => ((s.arrivals 3).length, (s.responders 3).arrived.length, (s.responders 3).sent)) =
      some (2, 1, [(12, wire [] [8, 1, 18, 1, 118, 24, 7])]) := by decide
  obtain ⟨s, hs, heq⟩ := Option.map_eq_some_iff.mp hrun
  obtain ⟨harr, hwait, hsent⟩ : (s.arrivals 3).length = 2 ∧
      (s.responders 3).arrived.length = 1 ∧
      (s.responders 3).sent = [(12, wire [] [8, 1, 18, 1, 118, 24, 7])] := by
    simpa using heq
  exact ⟨s, hs, harr, hwait, hsent,
    (workers_answer_in_order (Machine.reachable_of_run hs)).2.1 3⟩

/-! ### Exceptions -/

section Exceptions

variable {ι : Type} {w : Wire} {s : Workers ι}

/-- The BEGINs that thread `i` has answered. -/
def begins (i : ThreadId) (served : List Served) : ℕ :=
  served.countP fun e => e.thread = i ∧ e.request = .beginTransaction

/-- Of the exceptions that the switch could throw, only the one of `std::stoi` occurs. -/
theorem dispatch_error_iff {request : Request} {state : State} (hid : state.thread_id < 10) :
    (∃ e, dispatch request state = .error e) ↔
      request = .beginTransaction ∧ 2 ^ 31 ≤ 10 * state.local_timestamp + state.thread_id := by
  cases request with
  | beginTransaction =>
      simp only [dispatch, stoi_stdToString hid, true_and]
      split_ifs with hlt
      · simpa using hlt
      · simpa using hlt
  | get key =>
      constructor
      · rintro ⟨e, he⟩
        have hne := dispatch_ne_mapAt (.get key) state
        rw [he] at hne
        simp only [dispatch] at he
        split_ifs at he
        split at he
        · cases he
          exact absurd rfl hne
        · cases he
      · rintro ⟨hbegin, -⟩
        cases hbegin
  | put timestamp kv_pair => simp [dispatch]
  | notSet => simp [dispatch]

/-- A settled thread throws if and only if its switch does. -/
theorem processRequest_error_iff {request : Request} {state : State} (hs : state.Settled)
    (hid : state.thread_id < 10) :
    (∃ e, processRequest request state = .error e) ↔
      request = .beginTransaction ∧ 2 ^ 31 ≤ 10 * state.local_timestamp + state.thread_id := by
  rw [← dispatch_error_iff hid]
  cases hd : dispatch request state with
  | error e => simp [processRequest, hd]
  | ok r =>
      obtain ⟨state', published, hok⟩ := processRequest_of_dispatch hs hd
      simp [hok]

/-- **The local timestamp** of a thread is the number of BEGINs that it has answered. -/
theorem local_timestamp_eq_begins {r : ServerRun} (h : serverThreads.Reachable r) :
    ∀ i, (r.threads i).local_timestamp = begins i r.served := by
  refine h.invariant
    (I := fun r => ∀ i, (r.threads i).local_timestamp = begins i r.served) (fun _ => rfl) ?_
  intro r a r' hr hinv hstep j
  rcases serverThreads_step_cases hstep with
    ⟨i, request, response, state, published, hproc, rfl⟩ | ⟨g, -, rfl⟩
  · have hid := (beginInv_of_reachable hr).thread_id i
    have hfour := thread_lt i
    rw [begins, List.countP_append, ← begins, ← hinv j]
    by_cases hj : j = i
    · subst hj
      simp only [Function.update_self]
      by_cases hreq : request = .beginTransaction
      · subst hreq
        obtain ⟨-, -, hlocal⟩ := processRequest_begin (by omega) hproc
        simp [hlocal]
      · rw [processRequest_local_timestamp hreq hproc]
        simp [hreq]
    · simp [Function.update_of_ne hj, Ne.symm hj]
  · have hsame : ((r.receive g).threads j).local_timestamp = (r.threads j).local_timestamp := by
      simp only [ServerRun.receive, Function.update_apply]
      split_ifs with hj
      · rw [hj]
      · rfl
    rw [hsame]
    exact hinv j

/-- **What ends the server.** In every reachable state, processing a request throws if and only
if it is a BEGIN and the worker has answered `214748365` of them: the digits of the local
timestamp and of the worker are no `int` then. Nothing else throws, whatever has been stored and
gossiped. -/
theorem workers_throw_iff (h : (workers ι w).Reachable s) (i : ThreadId) (request : Request) :
    (∃ e, processRequest request (s.threads i) = .error e) ↔
      request = .beginTransaction ∧ 214748365 ≤ begins i (s.served.map Prod.snd) := by
  obtain ⟨c, hc, ⟨t, -, hst, hthreads, -⟩, -⟩ := workers_refine_cluster h
  obtain ⟨r, hr, hR⟩ := workers_record h
  have hsettled : (s.threads i).Settled := by
    rw [← hst.threads, ← hthreads]
    exact settled_of_reachable hc i
  have hid := (beginInv_of_reachable hr).thread_id i
  have hlocal := local_timestamp_eq_begins hr i
  rw [hR.threads] at hid hlocal
  rw [hR.served] at hlocal
  have hfour := thread_lt i
  rw [processRequest_error_iff hsettled (by omega), hlocal, hid]
  refine and_congr_right fun _ => ?_
  omega

end Exceptions

/-- After the run `putAndGet` no worker throws. -/
theorem workers_throw_iff_put_and_get : ∃ s,
    (workers ℕ putAndGetWire).run (workers ℕ putAndGetWire).init putAndGet = some s ∧
      s.served.length = 2 ∧
      ∀ i request, ¬ ∃ e, processRequest request (s.threads i) = .error e := by
  have hrun : ((workers ℕ putAndGetWire).run (workers ℕ putAndGetWire).init putAndGet).map
      (fun s => s.served.length) = some 2 := by decide
  obtain ⟨s, hs, hlength⟩ := Option.map_eq_some_iff.mp hrun
  refine ⟨s, hs, hlength, fun i request hthrow => ?_⟩
  obtain ⟨-, hmany⟩ := (workers_throw_iff (Machine.reachable_of_run hs) i request).mp hthrow
  have hle : begins i (s.served.map Prod.snd) ≤ (s.served.map Prod.snd).length :=
    List.countP_le_length
  rw [List.length_map, hlength] at hle
  omega

end LatticeFlow
