import Mathlib.Algebra.Group.Int.Defs
import LatticeFlow.Lib.Replication
import LatticeFlow.MapLattice
import LatticeFlow.TimestampLattice
import LatticeFlow.ZmqUtil

/-!
# The Key-Value Server: One Thread

This module models the functions of `key_value_stores/server.cc` that one server thread
runs: `process_request`, `send_gossip` and `receive_gossip`, over the thread's `State`. A
database maps strings to timestamped strings; it is the map lattice over the timestamp
lattice over `MaxLattice<int>` and `MaxLattice<std::string>`.

A `std::string` is a list of bytes under the lexicographic order. The wire timestamp of a
PUT is an `int64`; it is stored as an `int`, and `narrow` is that conversion. Functions of
the standard library that throw do so here with an `Exn`; the publication of a gossip
message is part of what `processRequest` returns.

The two counters of `State` are natural numbers: `std::stoi` throws long before
`local_timestamp` leaves the range of `int`, and a request is too short to hold `2 ^ 31`
pairs.

The thread gossips as soon as one update was made (`threshold` is `1`), so between
requests its change set is empty and its update counter zero. `State.Settled` says so, and
it is what makes each PUT publish its own keys.

## Main results

* `processRequest_ok`: what a request does to a settled thread.
* `processRequest_ne_mapAt`: no request makes a settled thread look up an absent key.
* `EntriesIn.join`, `EntriesIn.put`: joins of databases produce no new entry, since of two
  timestamped strings the join is one of the two (`join_eq_or`).
-/

namespace LatticeFlow

/-! ### Integers and exceptions -/

/-- The conversion from `int64` to `int`: the value modulo `2 ^ 32` in the range of
`int`. -/
def narrow (t : Int64) : ℤ := t.toInt32.toInt

/-- A narrowed value survives the way back over the wire. -/
theorem toInt_ofInt_narrow (t : Int64) : (Int64.ofInt (narrow t)).toInt = narrow t := by
  have hlo := t.toInt32.minValue_le_toInt
  have hhi := t.toInt32.toInt_lt
  rw [Int32.toInt_minValue] at hlo
  exact Int64.toInt_ofInt_of_le (by simp only [narrow]; omega) (by simp only [narrow]; omega)

/-- An `int` survives the way over the wire. -/
theorem narrow_ofInt {n : ℕ} (h : n < 2 ^ 31) : narrow (Int64.ofInt n) = n := by
  rw [narrow, Int64.toInt_toInt32, Int64.toInt_ofInt_of_le (by omega) (by omega)]
  exact Int.bmod_eq_of_le (by omega) (by omega)

/-- The exceptions that the modelled functions can throw. -/
inductive Exn
  /-- `std::stoi` found no number. -/
  | stoiInvalidArgument
  /-- `std::stoi` found a number outside the range of `int`. -/
  | stoiOutOfRange
  /-- `std::unordered_map::at` did not find the key. -/
  | mapAt
  deriving DecidableEq, Repr

/-- `std::to_string` of a non-negative `int`. -/
def stdToString (n : ℕ) : List Char := Nat.toDigits 10 n

/-- `std::isspace`: blank, and the control characters from tab to carriage return. -/
def isSpace (c : Char) : Bool :=
  c == ' ' || (9 ≤ c.toNat && c.toNat ≤ 13)

/-- `std::stoi` in base ten: skip white space, read an optional sign and as many digits as
there are, and check the range of `int`. -/
def stoi (s : List Char) : Except Exn ℤ :=
  let s := s.dropWhile isSpace
  let neg := s.head? == some '-'
  let s := if neg || s.head? == some '+' then s.tail else s
  let digits := s.takeWhile Char.isDigit
  let n : ℤ := digits.foldl (fun n c => 10 * n + (c.toNat - '0'.toNat : ℕ)) 0
  let n := if neg then -n else n
  if digits = [] then .error .stoiInvalidArgument
  else if -2 ^ 31 ≤ n ∧ n < 2 ^ 31 then .ok n
  else .error .stoiOutOfRange

/-! ### Data -/

/-- The number of server threads, `NUM_THREADS`. -/
def numThreads : ℕ := 4

/-- The number of updates after which a thread gossips, `THRESHOLD`. -/
def threshold : ℕ := 1

instance : NeZero numThreads := ⟨by decide⟩

/-- A server thread. -/
abbrev ThreadId := Fin numThreads

/-- `Timestamp`. -/
abbrev Timestamp := MaxLattice ℤ

/-- `MaxStringLattice`. -/
abbrev MaxStringLattice := MaxLattice Bytes

/-- `TimestampedStringLattice`. -/
abbrev TimestampedStringLattice := TimestampLattice Timestamp MaxStringLattice

/-- `Database`. -/
abbrev Database := MapLattice Bytes TimestampedStringLattice

instance : LawfulLattice TimestampedStringLattice :=
  lawful_timestampLattice_of_total totallyOrdered_maxLattice

/-- `communication::Request::Put::KeyValuePair`. -/
structure KeyValuePair where
  key : Bytes
  value : Bytes
  deriving DecidableEq, Repr

/-- `communication::Request`, by its `request_case`. -/
inductive Request
  | beginTransaction
  | get (key : Bytes)
  | put (timestamp : Int64) (kv_pair : List KeyValuePair)
  | notSet
  deriving DecidableEq, Repr

/-- `communication::Response`; its three fields are optional. -/
structure Response where
  succeed : Option Bool := none
  value : Option Bytes := none
  timestamp : Option Int64 := none
  deriving DecidableEq, Repr

/-- `State`, without the publisher socket. -/
structure State where
  kvs : Database := MapLattice.empty
  local_timestamp : ℕ := 0
  update_counter : ℕ := 0
  change_set : OrderedMap Bytes Unit := []
  thread_id : ℕ := 0

/-! ### Gossip -/

/-- The loop of `send_gossip` over the keys of the change set. -/
def gossipLoop (db : Database) : List Bytes → Database → Except Exn Database
  | [], gossip => .ok gossip
  | key :: keys, gossip =>
      match db.get? key with
      | none => .error .mapAt
      | some entry => gossipLoop db keys (gossip.put key entry)

/-- `send_gossip`: the database that is published, holding the changed keys with their
current entries. -/
def sendGossip (db : Database) (change_set : OrderedMap Bytes Unit) : Except Exn Database :=
  gossipLoop db change_set.keys MapLattice.empty

/-- `receive_gossip`, up to the release of the message: join it into the database. -/
def receiveGossip (db gossip : Database) : Database :=
  Lattice.join db gossip

/-! ### Requests -/

/-- The timestamped string that a PUT with this wire timestamp makes of a value. -/
def timestamped (timestamp : Int64) (value : Bytes) : TimestampedStringLattice :=
  ⟨(⟨narrow timestamp⟩, ⟨value⟩)⟩

/-- One turn of the loop over the pairs of a PUT. -/
def putPair (timestamp : Int64) (state : State) (kv_pair : KeyValuePair) : State :=
  { state with
    change_set := state.change_set.update OrderedMap.less kv_pair.key fun _ => ()
    kvs := state.kvs.put kv_pair.key (timestamped timestamp kv_pair.value)
    update_counter := state.update_counter + 1 }

/-- The switch of `process_request` over the kind of request. -/
def dispatch (request : Request) (state : State) : Except Exn (Response × State) :=
  match request with
  | .beginTransaction =>
      match stoi (stdToString state.local_timestamp ++ stdToString state.thread_id) with
      | .error e => .error e
      | .ok timestamp =>
          .ok ({ succeed := some true, timestamp := some (Int64.ofInt timestamp) },
            { state with local_timestamp := state.local_timestamp + 1 })
  | .get key =>
      if state.kvs.kvs_.count key = 0 then .ok ({ succeed := some false }, state)
      else
        match state.kvs.get? key with
        | none => .error .mapAt
        | some l =>
            .ok ({ succeed := some true, value := some l.value.get,
                   timestamp := some (Int64.ofInt l.timestamp.get) }, state)
  | .put timestamp kv_pair =>
      .ok ({ succeed := some true }, kv_pair.foldl (putPair timestamp) state)
  | .notSet => .ok ({ succeed := some false }, state)

/-- `process_request`: the response, the new state, and the database published to the
other threads if there is one. -/
def processRequest (request : Request) (state : State) :
    Except Exn (Response × State × Option Database) :=
  match dispatch request state with
  | .error e => .error e
  | .ok (response, state) =>
      if threshold ≤ state.update_counter ∧ numThreads ≠ 1 then
        match sendGossip state.kvs state.change_set with
        | .error e => .error e
        | .ok gossip =>
            .ok (response, { state with change_set := [], update_counter := 0 }, some gossip)
      else .ok (response, state, none)

/-! ### What a request does -/

/-- The entries that a request asks to store, in the order of its pairs. -/
def acceptedEntries : Request → List (Bytes × TimestampedStringLattice)
  | .put timestamp kv_pair => kv_pair.map fun p => (p.key, timestamped timestamp p.value)
  | _ => []

/-- Store entries one by one. -/
def putAll (db : Database) (entries : List (Bytes × TimestampedStringLattice)) : Database :=
  entries.foldl (fun db e => db.put e.1 e.2) db

/-- Between requests a thread has gossiped all its changes. -/
structure State.Settled (state : State) : Prop where
  update_counter : state.update_counter = 0
  change_set : state.change_set = []

/-- The loop of a PUT stores the pairs, adds their keys to the change set and counts
them. -/
theorem foldl_putPair (timestamp : Int64) (kv_pair : List KeyValuePair) (state : State) :
    kv_pair.foldl (putPair timestamp) state =
      { state with
        change_set := kv_pair.foldl
          (fun cs p => cs.update OrderedMap.less p.key fun _ => ()) state.change_set
        kvs := putAll state.kvs (acceptedEntries (.put timestamp kv_pair))
        update_counter := state.update_counter + kv_pair.length } := by
  induction kv_pair generalizing state with
  | nil => rfl
  | cons p ps ih =>
      rw [List.foldl_cons, ih]
      simp only [putPair, acceptedEntries, putAll, List.map_cons, List.foldl_cons,
        List.length_cons, State.mk.injEq, true_and, and_true]
      omega

/-- The keys of the change set after the loop. -/
theorem mem_keys_foldl_update {kv_pair : List KeyValuePair} {cs : OrderedMap Bytes Unit}
    {k : Bytes} :
    k ∈ (kv_pair.foldl (fun cs p => cs.update OrderedMap.less p.key fun _ => ()) cs).keys ↔
      k ∈ cs.keys ∨ ∃ p ∈ kv_pair, p.key = k := by
  induction kv_pair generalizing cs with
  | nil => simp
  | cons p ps ih =>
      rw [List.foldl_cons, ih, OrderedMap.mem_keys_update]
      simp only [List.mem_cons, exists_eq_or_imp, eq_comm (a := k)]
      tauto

/-- Storing entries joins them in, as one-entry databases. -/
theorem denote_putAll (db : Database) (entries : List (Bytes × TimestampedStringLattice)) :
    (putAll db entries).denote =
      db.denote ⊔ joinAll (entries.map fun e => (MapLattice.empty.put e.1 e.2).denote) :=
  read_foldl (fun db e => MapLattice.denote_put db e.1 e.2) db entries

/-- A one-entry database reads as its entry at its key and as nothing elsewhere. -/
theorem denote_single (k k' : Bytes) (e : TimestampedStringLattice) :
    (MapLattice.empty.put k e).denote k' = if k' = k then toClass (some e) else ⊥ := by
  rw [MapLattice.denote, MapLattice.lookup_put]
  split_ifs <;> rfl

/-- A stored key is present. -/
theorem isSome_putAll {db : Database} {entries : List (Bytes × TimestampedStringLattice)}
    {k : Bytes} (hk : k ∈ entries.map Prod.fst) : ((putAll db entries).get? k).isSome := by
  obtain ⟨e, he, rfl⟩ := List.mem_map.mp hk
  have hle : (MapLattice.empty.put e.1 e.2).denote ≤ (putAll db entries).denote := by
    rw [denote_putAll]
    refine le_sup_of_le_right (le_joinAll ?_)
    exact List.mem_map_of_mem (f := fun e => (MapLattice.empty.put e.1 e.2).denote) he
  have hat := hle e.1
  rw [denote_single, if_pos rfl, MapLattice.denote] at hat
  cases hget : (putAll db entries).get? e.1 with
  | none =>
      rw [hget] at hat
      exact absurd (le_bot_iff.mp hat) WithBot.coe_ne_bot
  | some x => rfl

/-- **The loop of `send_gossip`**: if every key is present it does not throw, and it
publishes exactly the entries of these keys. -/
theorem gossipLoop_ok {db : Database} {keys : List Bytes} (gossip : Database)
    (hkeys : ∀ k ∈ keys, (db.get? k).isSome) :
    ∃ g, gossipLoop db keys gossip = .ok g ∧
      ∀ k, g.denote k = gossip.denote k ⊔ if k ∈ keys then db.denote k else ⊥ := by
  induction keys generalizing gossip with
  | nil => exact ⟨gossip, rfl, by simp⟩
  | cons key keys ih =>
      obtain ⟨e, he⟩ := Option.isSome_iff_exists.mp (hkeys key List.mem_cons_self)
      obtain ⟨g, hg, hden⟩ :=
        ih (gossip.put key e) fun k hk => hkeys k (List.mem_cons_of_mem _ hk)
      refine ⟨g, by simp only [gossipLoop, he, hg], fun k => ?_⟩
      rw [hden, MapLattice.denote_put, Pi.sup_apply, sup_assoc, denote_single]
      by_cases hk : k = key
      · subst hk
        have hdb : db.denote k = toClass (some e) := by rw [MapLattice.denote, he]
        rw [if_pos rfl, if_pos List.mem_cons_self, hdb]
        split_ifs <;> simp
      · simp [hk]

/-- What the switch of `process_request` leaves behind, for every kind of request. -/
structure Dispatched (request : Request) (state state' : State) : Prop where
  kvs : state'.kvs = putAll state.kvs (acceptedEntries request)
  update_counter :
    state'.update_counter = state.update_counter + (acceptedEntries request).length
  change_set : ∀ k, k ∈ state'.change_set.keys ↔
    k ∈ state.change_set.keys ∨ k ∈ (acceptedEntries request).map Prod.fst
  thread_id : state'.thread_id = state.thread_id

/-- A request that is not a PUT leaves database, counter and change set alone. -/
theorem Dispatched.of_eq {request : Request} {state state' : State}
    (hnone : acceptedEntries request = []) (hkvs : state'.kvs = state.kvs)
    (hcount : state'.update_counter = state.update_counter)
    (hset : state'.change_set = state.change_set) (hid : state'.thread_id = state.thread_id) :
    Dispatched request state state' := by
  refine ⟨?_, ?_, fun k => ?_, hid⟩
  · rw [hnone, hkvs]
    rfl
  · rw [hnone, hcount]
    rfl
  · rw [hnone, hset]
    simp

/-- What a request does that does not throw. -/
theorem dispatch_ok {request : Request} {state state' : State} {response : Response}
    (h : dispatch request state = .ok (response, state')) :
    Dispatched request state state' := by
  cases request with
  | beginTransaction =>
      simp only [dispatch] at h
      split at h
      · cases h
      · cases h
        exact Dispatched.of_eq rfl rfl rfl rfl rfl
  | get key =>
      simp only [dispatch] at h
      split_ifs at h
      · cases h
        exact Dispatched.of_eq rfl rfl rfl rfl rfl
      · split at h
        · cases h
        · cases h
          exact Dispatched.of_eq rfl rfl rfl rfl rfl
  | put timestamp kv_pair =>
      simp only [dispatch, Except.ok.injEq, Prod.mk.injEq] at h
      obtain ⟨-, rfl⟩ := h
      rw [foldl_putPair]
      refine ⟨rfl, by simp [acceptedEntries], fun k => ?_, rfl⟩
      simp only [mem_keys_foldl_update, acceptedEntries, List.mem_map, Prod.exists]
      grind
  | notSet =>
      simp only [dispatch, Except.ok.injEq, Prod.mk.injEq] at h
      obtain ⟨-, rfl⟩ := h
      exact Dispatched.of_eq rfl rfl rfl rfl rfl

/-- The switch never throws from `at`: it looks a key up only if it counted it first. -/
theorem dispatch_ne_mapAt (request : Request) (state : State) :
    dispatch request state ≠ .error .mapAt := by
  cases request with
  | beginTransaction =>
      simp only [dispatch, stoi]
      split_ifs <;> simp
  | get key =>
      simp only [dispatch]
      split_ifs with hc
      · simp
      · cases hget : state.kvs.get? key with
        | none => exact absurd (UnorderedMap.count_eq_zero.mpr hget) hc
        | some l => simp
  | put timestamp kv_pair => simp [dispatch]
  | notSet => simp [dispatch]

/-- A settled thread that stored entries has changed exactly their keys, all present. -/
theorem Dispatched.present {request : Request} {state state' : State}
    (h : Dispatched request state state') (hs : state.Settled) :
    ∀ k ∈ state'.change_set.keys, (state'.kvs.get? k).isSome := by
  intro k hk
  rw [h.change_set, hs.change_set] at hk
  rw [h.kvs]
  exact isSome_putAll (hk.resolve_left List.not_mem_nil)

/-- **What a request does to a settled thread.** It stores its entries and leaves the
thread settled; if it stored any, it publishes the current entries of their keys. -/
theorem processRequest_ok {request : Request} {state state' : State} {response : Response}
    {published : Option Database} (hs : state.Settled)
    (h : processRequest request state = .ok (response, state', published)) :
    state'.Settled ∧ state'.kvs = putAll state.kvs (acceptedEntries request) ∧
      state'.thread_id = state.thread_id ∧
      ((acceptedEntries request = [] ∧ published = none) ∨
        (acceptedEntries request ≠ [] ∧ ∃ g, published = some g ∧ ∀ k, g.denote k =
          if k ∈ (acceptedEntries request).map Prod.fst then state'.kvs.denote k else ⊥)) := by
  simp only [processRequest] at h
  cases hd : dispatch request state with
  | error e =>
      rw [hd] at h
      cases h
  | ok r =>
      obtain ⟨resp, st⟩ := r
      simp only [hd] at h
      have hdis := dispatch_ok hd
      have hcount : st.update_counter = (acceptedEntries request).length := by
        rw [hdis.update_counter, hs.update_counter, Nat.zero_add]
      by_cases hnone : acceptedEntries request = []
      · have hzero : st.update_counter = 0 := by rw [hcount, hnone]; rfl
        have hkeys : st.change_set = [] := by
          rw [← List.map_eq_nil_iff (f := Prod.fst), List.eq_nil_iff_forall_not_mem]
          intro k hk
          have := (hdis.change_set k).mp hk
          simp [hs.change_set, hnone, OrderedMap.keys] at this
        rw [if_neg (by simp [threshold, hzero])] at h
        cases h
        exact ⟨⟨hzero, hkeys⟩, hdis.kvs, hdis.thread_id, Or.inl ⟨hnone, rfl⟩⟩
      · have hpos : threshold ≤ st.update_counter := by
          rw [hcount, threshold]
          exact List.length_pos_iff.mpr hnone
        obtain ⟨g, hg, hden⟩ := gossipLoop_ok MapLattice.empty (hdis.present hs)
        have hsend : sendGossip st.kvs st.change_set = .ok g := hg
        rw [if_pos ⟨hpos, by decide⟩, hsend] at h
        cases h
        refine ⟨⟨rfl, rfl⟩, hdis.kvs, hdis.thread_id, Or.inr ⟨hnone, g, rfl, fun k => ?_⟩⟩
        have hiff := hdis.change_set k
        simp only [hs.change_set, OrderedMap.keys, List.map_nil, List.not_mem_nil,
          false_or] at hiff
        rw [hden k, MapLattice.denote_empty, Pi.bot_apply, bot_sup_eq]
        exact if_congr hiff rfl rfl

/-- The gossip at the end of a request changes neither the response nor the database, the
local timestamp and the identifier. -/
theorem dispatch_of_processRequest {request : Request} {state state' : State}
    {response : Response} {published : Option Database}
    (h : processRequest request state = .ok (response, state', published)) :
    ∃ st, dispatch request state = .ok (response, st) ∧ state'.kvs = st.kvs ∧
      state'.local_timestamp = st.local_timestamp ∧ state'.thread_id = st.thread_id := by
  simp only [processRequest] at h
  split at h
  · cases h
  · rename_i hd
    split_ifs at h
    · split at h
      · cases h
      · cases h
        exact ⟨_, hd, rfl, rfl, rfl⟩
    · cases h
      exact ⟨_, hd, rfl, rfl, rfl⟩

/-- The response to a GET of a key whose entry is this one. -/
def getResponse : Option TimestampedStringLattice → Response
  | none => { succeed := some false }
  | some l =>
      { succeed := some true, value := some l.value.get,
        timestamp := some (Int64.ofInt l.timestamp.get) }

/-- **What a GET answers**: the thread's entry for the key, if there is one. -/
theorem processRequest_get_response {key : Bytes} {state state' : State} {response : Response}
    {published : Option Database}
    (h : processRequest (.get key) state = .ok (response, state', published)) :
    response = getResponse (state.kvs.get? key) := by
  obtain ⟨st, hd, -⟩ := dispatch_of_processRequest h
  simp only [dispatch] at hd
  split_ifs at hd with hcount
  · cases hd
    have hnone : state.kvs.get? key = none := UnorderedMap.count_eq_zero.mp hcount
    rw [hnone]
    rfl
  · split at hd
    · cases hd
    · rename_i l hl
      cases hd
      rw [hl]
      rfl

/-- A GET of a settled thread never throws and changes nothing. -/
theorem processRequest_get_eq {key : Bytes} {state : State} (hs : state.Settled) :
    processRequest (.get key) state = .ok (getResponse (state.kvs.get? key), state, none) := by
  have hdispatch : dispatch (.get key) state =
      .ok (getResponse (state.kvs.get? key), state) := by
    simp only [dispatch]
    cases hget : state.kvs.get? key with
    | none => rw [if_pos (UnorderedMap.count_eq_zero.mpr hget)]; rfl
    | some l =>
        have hcount : state.kvs.kvs_.count key ≠ 0 := by
          intro hzero
          have hnone : state.kvs.get? key = none := UnorderedMap.count_eq_zero.mp hzero
          rw [hnone] at hget
          cases hget
        rw [if_neg hcount]
        rfl
  simp [processRequest, hdispatch, hs.update_counter, threshold]

/-- A GET succeeds with the value of the thread's entry for the key. -/
theorem processRequest_get {key : Bytes} {state state' : State} {response : Response}
    {published : Option Database}
    (h : processRequest (.get key) state = .ok (response, state', published))
    (hsucceed : response.succeed = some true) :
    ∃ e, state.kvs.get? key = some e ∧ response.value = some e.value.get := by
  rw [processRequest_get_response h] at hsucceed ⊢
  cases hget : state.kvs.get? key with
  | none =>
      rw [hget] at hsucceed
      cases hsucceed
  | some e => exact ⟨e, rfl, rfl⟩

/-- **`send_gossip` never looks up an absent key**: a settled thread fails only where the
switch does. -/
theorem processRequest_of_dispatch {request : Request} {state st : State} {response : Response}
    (hs : state.Settled) (hd : dispatch request state = .ok (response, st)) :
    ∃ state' published, processRequest request state = .ok (response, state', published) := by
  obtain ⟨g, hg, -⟩ := gossipLoop_ok MapLattice.empty ((dispatch_ok hd).present hs)
  have hsend : sendGossip st.kvs st.change_set = .ok g := hg
  simp only [processRequest, hd, hsend]
  split_ifs
  · exact ⟨_, _, rfl⟩
  · exact ⟨_, _, rfl⟩

/-- Neither `send_gossip` nor a GET looks up an absent key. -/
theorem processRequest_ne_mapAt {request : Request} {state : State} (hs : state.Settled) :
    processRequest request state ≠ .error .mapAt := by
  cases hd : dispatch request state with
  | error e =>
      have hne := dispatch_ne_mapAt request state
      rw [hd] at hne
      simpa [processRequest, hd] using hne
  | ok r =>
      obtain ⟨state', published, hok⟩ := processRequest_of_dispatch hs hd
      simp [hok]

/-! ### Joins produce no new entry -/

/-- Of two timestamped strings the join is one of the two: a larger timestamp wins, and
under equal timestamps the larger string does. -/
theorem join_eq_or (x y : TimestampedStringLattice) :
    Lattice.join x y = x ∨ Lattice.join x y = y := by
  obtain ⟨⟨tx⟩, ⟨vx⟩⟩ := x
  obtain ⟨⟨ty⟩, ⟨vy⟩⟩ := y
  by_cases hlt : tx < ty
  · exact Or.inr (TimestampLattice.join_of_lt (decide_eq_true hlt))
  by_cases hgt : ty < tx
  · exact Or.inl (TimestampLattice.join_of_gt (fun h => hlt (of_decide_eq_true h))
      (decide_eq_true hgt))
  · obtain rfl : tx = ty := le_antisymm (not_lt.mp hgt) (not_lt.mp hlt)
    have hjoin := TimestampLattice.join_of_not_lt
      (l := (⟨(⟨tx⟩, ⟨vx⟩)⟩ : TimestampedStringLattice)) (r := ⟨(⟨tx⟩, ⟨vy⟩)⟩)
      (fun h => hlt (of_decide_eq_true h)) (fun h => hgt (of_decide_eq_true h))
    rw [hjoin]
    by_cases hv : vx < vy
    · right
      simp [Lattice.join, TimestampLattice.timestamp, TimestampLattice.value, hv]
    · left
      simp [Lattice.join, TimestampLattice.timestamp, TimestampLattice.value, hv]

/-- Every entry of the database satisfies `P`. -/
def EntriesIn (P : Bytes → TimestampedStringLattice → Prop) (db : Database) : Prop :=
  ∀ k e, db.get? k = some e → P k e

variable {P : Bytes → TimestampedStringLattice → Prop}

/-- There are no entries in an empty database. -/
theorem EntriesIn.empty : EntriesIn P MapLattice.empty := by
  intro k e h
  cases h

/-- A property that joins keep holds of the join of two entries. -/
theorem EntriesIn.joinEntry {k : Bytes} {x y : Option TimestampedStringLattice}
    (hx : ∀ e, x = some e → P k e) (hy : ∀ e, y = some e → P k e) :
    ∀ e, joinEntry x y = some e → P k e := by
  intro e h
  cases x with
  | none => exact hy e h
  | some x =>
      cases y with
      | none => exact hx e h
      | some y =>
          obtain rfl : Lattice.join x y = e := Option.some.inj h
          rcases join_eq_or x y with heq | heq
          · rw [heq]
            exact hx x rfl
          · rw [heq]
            exact hy y rfl

/-- And of the entries after a put. -/
theorem EntriesIn.put {db : Database} (h : EntriesIn P db) {k : Bytes}
    {e : TimestampedStringLattice} (he : P k e) : EntriesIn P (db.put k e) := by
  intro k' e' h'
  rw [MapLattice.lookup_put] at h'
  split_ifs at h' with hk
  · subst hk
    exact EntriesIn.joinEntry (h k') (by rintro _ ⟨⟩; exact he) e' h'
  · exact h k' e' h'

/-- And of those of a join. -/
theorem EntriesIn.join {db db' : Database} (h : EntriesIn P db) (h' : EntriesIn P db') :
    EntriesIn P (Lattice.join db db') := by
  intro k e he
  rw [MapLattice.lookup_join] at he
  exact EntriesIn.joinEntry (h k) (h' k) e he

/-- And of those after several puts. -/
theorem EntriesIn.putAll {db : Database} (h : EntriesIn P db)
    {entries : List (Bytes × TimestampedStringLattice)} (he : ∀ e ∈ entries, P e.1 e.2) :
    EntriesIn P (putAll db entries) := by
  induction entries generalizing db with
  | nil => exact h
  | cons e es ih =>
      exact ih (h.put (he e List.mem_cons_self)) fun x hx => he x (List.mem_cons_of_mem _ hx)

/-- And of those that are published. -/
theorem EntriesIn.gossipLoop {db : Database} (h : EntriesIn P db) {keys : List Bytes}
    {gossip g : Database} (hg : EntriesIn P gossip)
    (hloop : gossipLoop db keys gossip = .ok g) : EntriesIn P g := by
  induction keys generalizing gossip with
  | nil =>
      obtain rfl : gossip = g := Except.ok.inj hloop
      exact hg
  | cons key keys ih =>
      simp only [LatticeFlow.gossipLoop] at hloop
      split at hloop
      · cases hloop
      · rename_i e he
        exact ih (hg.put (h key e he)) hloop

/-- What a request publishes has only entries of the new database. -/
theorem EntriesIn.published {request : Request} {state state' : State} {response : Response}
    {g : Database} (h : EntriesIn P state'.kvs)
    (hreq : processRequest request state = .ok (response, state', some g)) :
    EntriesIn P g := by
  simp only [processRequest] at hreq
  split at hreq
  · cases hreq
  · split_ifs at hreq
    · split at hreq
      · cases hreq
      · rename_i hsend
        cases hreq
        exact EntriesIn.gossipLoop h EntriesIn.empty hsend
    · cases hreq

end LatticeFlow
