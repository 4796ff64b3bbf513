import Mathlib.Data.List.Basic
import LatticeFlow.ZmqUtil

/-!
# Enveloped Messages

`zmq_util/zmq_util.cc` sends and receives multipart messages in two forms: as the vector of
their frames, and as an `EnvelopedMessage`, which is a connection id and a data frame. Each of
the four functions is a loop that sets or reads the flag that another frame follows.

A socket is the queue of the frames that have been sent and not received. A frame carries the
flag `ZMQ_SNDMORE` it has been sent with, which `ZMQ_RCVMORE` reports when it has been
received. A `recv` without a frame waits; no frame comes while it does.

## Main results

* `sendMsgs_eq`, `sendEnvelopedMsg_eq`: the frames of a message.
* `recvMsgs_eq_ok_iff`: what is received.
* `messages_round_trip`: messages come out as they went in, and a clone of an envelope is sent
  as the envelope was.
* `envelope_less_not_strictWeakOrder`: `operator<` of envelopes compares both components at
  once, and is no order for the keys of a sorted container.
-/

namespace LatticeFlow

/-- A frame, with the flag that another frame of the same message follows. -/
structure Frame where
  data : Bytes
  more : Bool
  deriving DecidableEq, Repr

/-- `zmq::socket_t`: the frames that have been sent and not received. -/
abbrev Socket := List Frame

/-- `EnvelopedMessage`. -/
structure EnvelopedMessage where
  cid : ConnectionId
  msg : Bytes
  deriving DecidableEq, Repr

/-- Why a call does not return. -/
inductive RecvFailure
  /-- `recv` waits for a frame. -/
  | waits
  /-- `assert(msgs.size() > 0)` fails. -/
  | assertion
  deriving DecidableEq, Repr

/-- `socket->send`, with or without `ZMQ_SNDMORE`. -/
def Socket.send (socket : Socket) (msg : Bytes) (sndmore : Bool) : Socket :=
  socket ++ [⟨msg, sndmore⟩]

/-- `send_msgs`. -/
def sendMsgs (msgs : List Bytes) (socket : Socket) : Socket :=
  msgs.zipIdx.foldl (fun socket m => socket.send m.1 (!(m.2 == msgs.length - 1))) socket

/-- The loop of `recv_msgs`, with the messages so far and `more`. -/
def recvLoop (msgs : List Bytes) : Bool → Socket → Except RecvFailure (List Bytes × Socket)
  | false, socket => .ok (msgs, socket)
  | true, [] => .error .waits
  | true, frame :: socket => recvLoop (msgs ++ [frame.data]) frame.more socket

/-- `recv_msgs`. -/
def recvMsgs (socket : Socket) : Except RecvFailure (List Bytes × Socket) :=
  recvLoop [] true socket

/-- `recv_enveloped_msg`. -/
def recvEnvelopedMsg (socket : Socket) : Except RecvFailure (EnvelopedMessage × Socket) := do
  let (msgs, socket) ← recvMsgs socket
  match msgs.getLast? with
  | none => .error .assertion
  | some msg => .ok (⟨⟨msgs.dropLast⟩, msg⟩, socket)

/-- `send_enveloped_msg`. -/
def sendEnvelopedMsg (env : EnvelopedMessage) (socket : Socket) : Socket :=
  (env.cid.connection_ids_.foldl (fun socket msg => socket.send msg true) socket).send env.msg false

/-- `ConnectionId::Empty`. -/
def ConnectionId.empty : ConnectionId :=
  ⟨[]⟩

/-- `ConnectionId::Clone`: the messages are copied one by one into new ones. -/
def ConnectionId.clone (cid : ConnectionId) : ConnectionId :=
  let clone : List Bytes := List.replicate cid.connection_ids_.length []
  ⟨cid.connection_ids_.zipIdx.foldl (fun clone m => clone.set m.2 m.1) clone⟩

/-- `Clone` of an `EnvelopedMessage`. -/
def EnvelopedMessage.clone (env : EnvelopedMessage) : EnvelopedMessage :=
  ⟨env.cid.clone, env.msg⟩

/-! ### Any number of messages -/

/-- A message that is to be sent, by `send_msgs` or by `send_enveloped_msg`. -/
inductive Outgoing
  | msgs (msgs : List Bytes)
  | enveloped (env : EnvelopedMessage)
  deriving DecidableEq, Repr

/-- A message that has been received, by `recv_msgs` or by `recv_enveloped_msg`. -/
inductive Incoming
  | msgs (msgs : List Bytes)
  | enveloped (env : EnvelopedMessage)
  deriving DecidableEq, Repr

/-- Which function receives a message. -/
inductive Receiver
  | msgs
  | enveloped
  deriving DecidableEq, Repr

/-- The frames of a message. -/
def Outgoing.frames : Outgoing → List Bytes
  | .msgs frames => frames
  | .enveloped env => env.cid.connection_ids_ ++ [env.msg]

/-- Send a message. -/
def Outgoing.send (socket : Socket) : Outgoing → Socket
  | .msgs frames => sendMsgs frames socket
  | .enveloped env => sendEnvelopedMsg env socket

/-- Send messages one after another. -/
def sendAll (sends : List Outgoing) (socket : Socket) : Socket :=
  sends.foldl Outgoing.send socket

/-- Receive a message. -/
def Receiver.recv (socket : Socket) : Receiver → Except RecvFailure (Incoming × Socket)
  | .msgs => do
      let (frames, socket) ← recvMsgs socket
      .ok (.msgs frames, socket)
  | .enveloped => do
      let (env, socket) ← recvEnvelopedMsg socket
      .ok (.enveloped env, socket)

/-- Receive messages one after another. -/
def recvAll : List Receiver → Socket → Except RecvFailure (List Incoming × Socket)
  | [], socket => .ok ([], socket)
  | r :: rs, socket => do
      let (m, socket) ← r.recv socket
      let (ms, socket) ← recvAll rs socket
      .ok (m :: ms, socket)

/-- What is to be received of a message with the given frames: all of them, or all but the
last one as the connection id and the last one as the data. -/
def Receiver.expected : Receiver → List Bytes → Incoming
  | .msgs, frames => .msgs frames
  | .enveloped, frames => .enveloped ⟨⟨frames.dropLast⟩, frames.getLastD []⟩

/-! ### The frames of one message -/

/-- A message on the wire: every frame but the last one says that another one follows. -/
def wire (init : List Bytes) (last : Bytes) : List Frame :=
  init.map (⟨·, true⟩) ++ [⟨last, false⟩]

/-- Frames sent one after another are behind what the socket had. -/
theorem foldl_send {α : Type} (f : α → Frame) (xs : List α) (socket : Socket) :
    xs.foldl (fun socket x => socket.send (f x).data (f x).more) socket = socket ++ xs.map f := by
  induction xs generalizing socket with
  | nil => exact (List.append_nil socket).symm
  | cons x xs ih =>
      rw [List.foldl_cons, ih, Socket.send, List.append_assoc]
      rfl

/-- `send_enveloped_msg` sends the frames of the envelope. -/
theorem sendEnvelopedMsg_eq (env : EnvelopedMessage) (socket : Socket) :
    sendEnvelopedMsg env socket = socket ++ wire env.cid.connection_ids_ env.msg := by
  have hcid := foldl_send (fun msg => ⟨msg, true⟩) env.cid.connection_ids_ socket
  rw [sendEnvelopedMsg, hcid, Socket.send, wire, List.append_assoc]

/-- `send_msgs` sends the frames of the message. -/
theorem sendMsgs_eq (init : List Bytes) (last : Bytes) (socket : Socket) :
    sendMsgs (init ++ [last]) socket = socket ++ wire init last := by
  have hsent := foldl_send (fun m : Bytes × ℕ => ⟨m.1, !(m.2 == (init ++ [last]).length - 1)⟩)
    (init ++ [last]).zipIdx socket
  -- Only the last index is that of the last frame.
  have hinit : init.zipIdx.map (fun m : Bytes × ℕ => Frame.mk m.1 (!(m.2 == init.length))) =
      init.map (⟨·, true⟩) := by
    calc init.zipIdx.map (fun m : Bytes × ℕ => Frame.mk m.1 (!(m.2 == init.length)))
        = init.zipIdx.map fun m => Frame.mk m.1 true := by
          refine List.map_congr_left fun m hm => ?_
          have hlt := List.snd_lt_of_mem_zipIdx hm
          have hne : m.2 ≠ init.length := by omega
          simp [hne]
      _ = (init.zipIdx.map Prod.fst).map (⟨·, true⟩) := by rw [List.map_map]; rfl
      _ = init.map (⟨·, true⟩) := by rw [List.zipIdx_map_fst]
  rw [sendMsgs, hsent, wire, List.zipIdx_append, List.map_append, ← hinit]
  simp

/-- The loop reads a message to its last frame. -/
theorem recvLoop_wire (msgs init : List Bytes) (last : Bytes) (rest : Socket) :
    recvLoop msgs true (wire init last ++ rest) = .ok (msgs ++ init ++ [last], rest) := by
  induction init generalizing msgs with
  | nil => simp [wire, recvLoop]
  | cons m init ih =>
      have hrest := ih (msgs ++ [m])
      rw [List.append_assoc msgs [m], List.singleton_append] at hrest
      exact hrest

/-- The loop returns with a message only. -/
theorem recvLoop_eq_ok {socket rest : Socket} {msgs received : List Bytes}
    (h : recvLoop msgs true socket = .ok (received, rest)) :
    ∃ init last, received = msgs ++ init ++ [last] ∧ socket = wire init last ++ rest := by
  induction socket generalizing msgs with
  | nil => cases h
  | cons frame socket ih =>
      obtain ⟨data, more⟩ := frame
      cases more with
      | false =>
          rw [recvLoop, recvLoop] at h
          obtain ⟨rfl, rfl⟩ := Prod.mk.inj (Except.ok.inj h)
          exact ⟨[], data, by simp, rfl⟩
      | true =>
          obtain ⟨init, last, rfl, rfl⟩ := ih h
          exact ⟨data :: init, last, by simp, rfl⟩

/-- **What is received**: a message, up to its last frame. -/
theorem recvMsgs_eq_ok_iff {socket rest : Socket} {received : List Bytes} :
    recvMsgs socket = .ok (received, rest) ↔
      ∃ init last, received = init ++ [last] ∧ socket = wire init last ++ rest := by
  constructor
  · intro h
    exact recvLoop_eq_ok h
  · rintro ⟨init, last, rfl, rfl⟩
    exact recvLoop_wire [] init last rest

/-- An envelope is received with all but the last frame as its connection id. -/
theorem recvEnvelopedMsg_wire (init : List Bytes) (last : Bytes) (rest : Socket) :
    recvEnvelopedMsg (wire init last ++ rest) = .ok (⟨⟨init⟩, last⟩, rest) := by
  have hmsgs : recvMsgs (wire init last ++ rest) = .ok (init ++ [last], rest) :=
    recvMsgs_eq_ok_iff.mpr ⟨init, last, rfl, rfl⟩
  simp [recvEnvelopedMsg, hmsgs, bind, Except.bind]

/-- What is received as a message stood in front as its frames. -/
theorem recvEnvelopedMsg_eq_ok {socket rest : Socket} {env : EnvelopedMessage}
    (h : recvEnvelopedMsg socket = .ok (env, rest)) :
    socket = wire env.cid.connection_ids_ env.msg ++ rest := by
  rcases hmsgs : recvMsgs socket with e | ⟨received, rest'⟩
  · rw [recvEnvelopedMsg, hmsgs] at h
    cases h
  · obtain ⟨init, last, -, rfl⟩ := recvMsgs_eq_ok_iff.mp hmsgs
    rw [recvEnvelopedMsg_wire] at h
    obtain ⟨rfl, rfl⟩ := Prod.mk.inj (Except.ok.inj h)
    rfl

/-! ### Clones -/

/-- The loop of `clone` sets the elements to those of the original. -/
theorem foldl_set_zipIdx (pre xs : List Bytes) :
    (xs.zipIdx pre.length).foldl (fun clone m => clone.set m.2 m.1)
      (pre ++ List.replicate xs.length []) = pre ++ xs := by
  induction xs generalizing pre with
  | nil => rfl
  | cons x xs ih =>
      have hstep := ih (pre ++ [x])
      simp only [List.length_append, List.length_singleton, List.append_assoc] at hstep
      rw [List.zipIdx_cons, List.foldl_cons, List.length_cons, List.replicate_succ,
        List.set_append_right _ _ le_rfl, Nat.sub_self]
      exact hstep

/-- A clone is equal to what it is a clone of. -/
theorem ConnectionId.clone_eq (cid : ConnectionId) : cid.clone = cid := by
  have hcopied := foldl_set_zipIdx [] cid.connection_ids_
  rw [ConnectionId.clone]
  exact congrArg ConnectionId.mk hcopied

/-- **A clone** is equal to the original. -/
theorem EnvelopedMessage.clone_eq (env : EnvelopedMessage) : env.clone = env := by
  rw [EnvelopedMessage.clone, ConnectionId.clone_eq]

/-! ### Round trips -/

/-- Both functions send a message with the same frames in the same way. -/
theorem Outgoing.send_eq {m : Outgoing} {init : List Bytes} {last : Bytes}
    (hm : m.frames = init ++ [last]) (socket : Socket) :
    m.send socket = socket ++ wire init last := by
  cases m with
  | msgs frames =>
      obtain rfl : frames = init ++ [last] := hm
      exact sendMsgs_eq init last socket
  | enveloped env =>
      obtain ⟨rfl, hlast⟩ := List.append_inj' hm rfl
      obtain rfl := List.singleton_inj.mp hlast
      exact sendEnvelopedMsg_eq env socket

/-- A message is received as it is to be. -/
theorem Receiver.recv_wire (r : Receiver) (init : List Bytes) (last : Bytes) (rest : Socket) :
    r.recv (wire init last ++ rest) = .ok (r.expected (init ++ [last]), rest) := by
  cases r with
  | msgs =>
      have hmsgs : recvMsgs (wire init last ++ rest) = .ok (init ++ [last], rest) :=
        recvMsgs_eq_ok_iff.mpr ⟨init, last, rfl, rfl⟩
      simp [Receiver.recv, hmsgs, Receiver.expected, bind, Except.bind]
  | enveloped =>
      simp [Receiver.recv, recvEnvelopedMsg_wire, Receiver.expected, bind, Except.bind]

/-- What is sent stands behind what is there. -/
theorem sendAll_eq {sends : List Outgoing} (hsends : ∀ m ∈ sends, m.frames ≠ [])
    (socket : Socket) : sendAll sends socket = socket ++ sendAll sends [] := by
  induction sends generalizing socket with
  | nil => exact (List.append_nil socket).symm
  | cons m sends ih =>
      have hrest : ∀ m' ∈ sends, m'.frames ≠ [] := fun m' h => hsends m' (List.mem_cons_of_mem m h)
      obtain ⟨init, last, hm⟩ :=
        (List.eq_nil_or_concat' m.frames).resolve_left (hsends m List.mem_cons_self)
      calc sendAll (m :: sends) socket = sendAll sends (socket ++ wire init last) := by
            rw [← Outgoing.send_eq hm]; rfl
        _ = socket ++ (wire init last ++ sendAll sends []) := by
            rw [ih hrest, List.append_assoc]
        _ = socket ++ sendAll sends (m.send []) := by
            rw [Outgoing.send_eq hm, List.nil_append, ih hrest (wire init last)]

/-- What several senders have sent is received by as many receivers. -/
theorem recvAll_sendAll {sends : List Outgoing} (hsends : ∀ m ∈ sends, m.frames ≠ [])
    {recvs : List Receiver} (hlen : recvs.length = sends.length) (rest : Socket) :
    recvAll recvs (sendAll sends [] ++ rest) =
      .ok (List.zipWith Receiver.expected recvs (sends.map Outgoing.frames), rest) := by
  induction sends generalizing recvs with
  | nil =>
      obtain rfl := List.eq_nil_of_length_eq_zero hlen
      rfl
  | cons m sends ih =>
      obtain ⟨r, rs, rfl⟩ := List.exists_cons_of_length_eq_add_one hlen
      have hrest : ∀ m' ∈ sends, m'.frames ≠ [] := fun m' h => hsends m' (List.mem_cons_of_mem m h)
      obtain ⟨init, last, hm⟩ :=
        (List.eq_nil_or_concat' m.frames).resolve_left (hsends m List.mem_cons_self)
      have hsent : sendAll (m :: sends) [] = wire init last ++ sendAll sends [] := by
        rw [← sendAll_eq hrest, ← List.nil_append (wire init last), ← Outgoing.send_eq hm]
        rfl
      have hlater := ih hrest (Nat.succ.inj hlen)
      rw [hsent, List.append_assoc]
      simp [recvAll, r.recv_wire, hlater, hm, bind, Except.bind]

/-- **Messages come out as they went in.** If any messages that are not empty are sent one
after another, by either function, as many calls of the functions that receive, in any order,
return exactly these messages in order, and leave the frames that were sent later. And if an
envelope is received, and its clone is sent on any socket, the frames are sent that were
received, with their flags. -/
theorem messages_round_trip :
    (∀ (sends : List Outgoing) (recvs : List Receiver) (rest : Socket),
      (∀ m ∈ sends, m.frames ≠ []) → recvs.length = sends.length →
        recvAll recvs (sendAll sends [] ++ rest) =
          .ok (List.zipWith Receiver.expected recvs (sends.map Outgoing.frames), rest)) ∧
    ∀ (socket rest : Socket) (env : EnvelopedMessage),
      recvEnvelopedMsg socket = .ok (env, rest) →
        ∃ frames, socket = frames ++ rest ∧
          ∀ out, sendEnvelopedMsg env.clone out = out ++ frames := by
  refine ⟨fun sends recvs rest hsends hlen => recvAll_sendAll hsends hlen rest, ?_⟩
  intro socket rest env henv
  refine ⟨wire env.cid.connection_ids_ env.msg, recvEnvelopedMsg_eq_ok henv, fun out => ?_⟩
  rw [EnvelopedMessage.clone_eq, sendEnvelopedMsg_eq]

/-- Two frames; an envelope with an empty delimiter; and a bare data frame. -/
def threeMessages : List Outgoing :=
  [.msgs [[1], [2]], .enveloped ⟨⟨[[7], []]⟩, [5]⟩, .msgs [[9]]]

/-- They are received with the other function each, ahead of a message that is not complete;
and the envelope, when it is received as one, cloned and sent on. -/
theorem messages_round_trip_three_messages :
    recvAll [.enveloped, .msgs, .enveloped] (sendAll threeMessages [] ++ [⟨[4], true⟩]) =
        .ok ([.enveloped ⟨⟨[[1]]⟩, [2]⟩, .msgs [[7], [], [5]], .enveloped ⟨.empty, [9]⟩],
          [⟨[4], true⟩]) ∧
      ∃ frames, [⟨[7], true⟩, ⟨[], true⟩, ⟨[5], false⟩, ⟨[9], false⟩] =
          frames ++ [(⟨[9], false⟩ : Frame)] ∧
        ∀ out, sendEnvelopedMsg (EnvelopedMessage.mk ⟨[[7], []]⟩ [5]).clone out = out ++ frames :=
  ⟨messages_round_trip.1 threeMessages _ _ (by decide) rfl, messages_round_trip.2 _ _ _ rfl⟩

/-! ### Comparing envelopes -/

/-- `operator<` of `EnvelopedMessage`, over a comparison of connection ids. -/
def EnvelopedMessage.less (lt : ConnectionId → ConnectionId → Bool)
    (lhs rhs : EnvelopedMessage) : Bool :=
  lt lhs.cid rhs.cid && messageLess lhs.msg rhs.msg

/-- Connection ids compared over the whole ranges of their frames. -/
def ConnectionId.framesLess (lhs rhs : ConnectionId) : Bool :=
  lexicographicalCompare messageLess
    (iteratorRange lhs.connection_ids_ (cbegin lhs.connection_ids_)
      (cend lhs.connection_ids_))
    (iteratorRange rhs.connection_ids_ (cbegin rhs.connection_ids_)
      (cend rhs.connection_ids_))

/-- Such a comparison is a strict total order of the connection ids. -/
theorem ConnectionId.framesLess_isStrictTotalOrder :
    IsStrictTotalOrder ConnectionId fun a b => a.framesLess b = true where
  trichotomous := by
    rintro ⟨a⟩ ⟨b⟩ hab hba
    simp only [framesLess, wholeRange_compare_iff] at hab hba
    rw [le_antisymm (not_lt.mp hba) (not_lt.mp hab)]
  irrefl := by
    intro a ha
    exact lt_irrefl _ (wholeRange_compare_iff.mp ha)
  trans := by
    intro a b c hab hbc
    exact wholeRange_compare_iff.mpr
      (lt_trans (wholeRange_compare_iff.mp hab) (wholeRange_compare_iff.mp hbc))

section KeyOrder

variable {lt : ConnectionId → ConnectionId → Bool}

/-- `operator<` holds if both components are smaller. -/
theorem EnvelopedMessage.less_iff {lhs rhs : EnvelopedMessage} :
    lhs.less lt rhs = true ↔ lt lhs.cid rhs.cid = true ∧ lhs.msg < rhs.msg := by
  rw [less, Bool.and_eq_true, messageLess_iff]

/-- Comparing both components keeps irreflexivity and transitivity. -/
theorem EnvelopedMessage.less_isStrictOrder
    (h : IsStrictTotalOrder ConnectionId fun a b => lt a b = true) :
    IsStrictOrder EnvelopedMessage fun a b => a.less lt b = true where
  irrefl a ha := lt_irrefl a.msg (less_iff.mp ha).2
  trans a b c hab hbc := by
    rw [less_iff] at hab hbc ⊢
    exact ⟨h.trans _ _ _ hab.1 hbc.1, lt_trans hab.2 hbc.2⟩

/-- Of two connection ids some one is smaller. -/
theorem exists_less (h : IsStrictTotalOrder ConnectionId fun a b => lt a b = true) :
    ∃ c c' : ConnectionId, lt c c' = true := by
  by_contra hno
  have hall : ∀ c c' : ConnectionId, ¬ lt c c' = true := fun c c' hlt => hno ⟨c, c', hlt⟩
  have heq : (⟨[]⟩ : ConnectionId) = ⟨[[]]⟩ := h.trichotomous _ _ (hall _ _) (hall _ _)
  cases heq

end KeyOrder

/-- **Envelopes cannot be keys of a sorted container**, whatever the strict total order on
connection ids: `operator<` is irreflexive and transitive, but envelopes that agree in one
component are incomparable, so incomparability is not transitive and different envelopes
are taken for the same. -/
theorem envelope_less_not_strictWeakOrder (lt : ConnectionId → ConnectionId → Bool)
    (h : IsStrictTotalOrder ConnectionId fun a b => lt a b = true) :
    (IsStrictOrder EnvelopedMessage fun a b => a.less lt b = true) ∧
      (¬ IsStrictWeakOrder EnvelopedMessage fun a b => a.less lt b = true) ∧
      ¬ ∀ a b : EnvelopedMessage, ¬ a.less lt b = true → ¬ b.less lt a = true → a = b := by
  obtain ⟨c, c', hlt⟩ := exists_less h
  have hcc : ¬ lt c c = true := h.irrefl c
  -- `(c, [])` and `(c, [0])` share the connection, `(c, [0])` and `(c', [0])` the message.
  let a : EnvelopedMessage := ⟨c, []⟩
  let b : EnvelopedMessage := ⟨c, [0]⟩
  let d : EnvelopedMessage := ⟨c', [0]⟩
  have hab : ¬ a.less lt b = true ∧ ¬ b.less lt a = true :=
    ⟨fun hl => hcc (EnvelopedMessage.less_iff.mp hl).1,
      fun hl => hcc (EnvelopedMessage.less_iff.mp hl).1⟩
  have hbd : ¬ b.less lt d = true ∧ ¬ d.less lt b = true :=
    ⟨fun hl => lt_irrefl [0] (EnvelopedMessage.less_iff.mp hl).2,
      fun hl => lt_irrefl [0] (EnvelopedMessage.less_iff.mp hl).2⟩
  have had : a.less lt d = true :=
    EnvelopedMessage.less_iff.mpr ⟨hlt, List.nil_lt_cons 0 []⟩
  refine ⟨EnvelopedMessage.less_isStrictOrder h, fun hweak => ?_, fun hsame => ?_⟩
  · exact (hweak.incomp_trans a b d hab hbd).1 had
  · have hmsg : ([] : Bytes) = [0] := congrArg EnvelopedMessage.msg (hsame a b hab.1 hab.2)
    cases hmsg

/-- The comparison over the frames of the connection ids is such an order. -/
theorem envelope_less_not_strictWeakOrder_frames :
    (IsStrictOrder EnvelopedMessage fun a b => a.less ConnectionId.framesLess b = true) ∧
      (¬ IsStrictWeakOrder EnvelopedMessage
        fun a b => a.less ConnectionId.framesLess b = true) ∧
      ¬ ∀ a b : EnvelopedMessage, ¬ a.less ConnectionId.framesLess b = true →
        ¬ b.less ConnectionId.framesLess a = true → a = b :=
  envelope_less_not_strictWeakOrder ConnectionId.framesLess
    ConnectionId.framesLess_isStrictTotalOrder

/-- Two messages of one client are the same key, the second of them is the same key as
that message of another client, and yet the first is smaller than the last: a map counts
a copy of the first message for the second. -/
theorem envelopes_of_one_client_identified :
    let a : EnvelopedMessage := ⟨⟨[[1], []]⟩, [5]⟩
    let b : EnvelopedMessage := ⟨⟨[[1], []]⟩, [7]⟩
    let c : EnvelopedMessage := ⟨⟨[[2], []]⟩, [7]⟩
    (a.less ConnectionId.framesLess b = false ∧ b.less ConnectionId.framesLess a = false) ∧
      (b.less ConnectionId.framesLess c = false ∧
        c.less ConnectionId.framesLess b = false) ∧
      a.less ConnectionId.framesLess c = true ∧
      OrderedMap.find (EnvelopedMessage.less ConnectionId.framesLess) b
        (OrderedMap.update (EnvelopedMessage.less ConnectionId.framesLess) a (fun _ => 1) []) =
        some 1 ∧
      ¬ IsStrictWeakOrder EnvelopedMessage
        fun a b => a.less ConnectionId.framesLess b = true := by
  intro a b c
  have hab : a.less ConnectionId.framesLess b = false ∧
    b.less ConnectionId.framesLess a = false := by decide
  have hbc : b.less ConnectionId.framesLess c = false ∧
    c.less ConnectionId.framesLess b = false := by decide
  have hac : a.less ConnectionId.framesLess c = true := by decide
  refine ⟨hab, hbc, hac, by decide, fun hweak => ?_⟩
  exact (hweak.incomp_trans a b c (by simp [hab]) (by simp [hbc])).1 hac

end LatticeFlow
