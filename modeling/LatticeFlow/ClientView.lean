import LatticeFlow.IciClient
import LatticeFlow.LastWriteWins

/-!
# The Clients as One

`RucClient`, `RcClient` and `IciClient` are subclasses of `Client` of `key_value_stores/client.h`,
and `repl` calls them through a `Client*`. All three refine one abstract client (`ClientView`),
which knows its timestamp, its own puts that it has not sent and the values it has read. It
answers a `get` from the first of these, then from the second, and asks a thread otherwise.

An `RcClient` keeps no values that it has read, and a `RucClient` has no puts that it has not
sent either.

## Main results

* `commanded`: the commands of the clients are those of the abstract client.
* `received`: so is what they do with a response.
-/

namespace LatticeFlow

/-! ### Clients of three kinds -/

/-- The class of a client. -/
inductive ClientKind
  | ruc
  | rc
  | ici
  deriving DecidableEq, Repr

/-- A `Client*`. -/
inductive AnyClient
  | ruc (client : RucClient)
  | rc (client : RcClient)
  | ici (client : IciClient)

namespace AnyClient

def init : ClientKind → AnyClient
  | .ruc => .ruc {}
  | .rc => .rc {}
  | .ici => .ici {}

def kind : AnyClient → ClientKind
  | ruc _ => .ruc
  | rc _ => .rc
  | ici _ => .ici

/-- A command, up to the request that it sends if it sends one. -/
def command : AnyClient → ClientCommand → Option Request × AnyClient
  | ruc client, c => ((client.command c).1, .ruc (client.command c).2)
  | rc client, c => ((client.command c).1, .rc (client.command c).2)
  | ici client, c => ((client.command c).1, .ici (client.command c).2)

/-- The rest of a command, once its response is there. -/
def receive : AnyClient → Response → AnyClient
  | ruc client, r => .ruc (client.receive r)
  | rc client, r => .rc (client.receive r)
  | ici client, r => .ici (client.receive r)

def current_timestamp_ : AnyClient → ℤ
  | ruc client => client.current_timestamp_
  | rc client => client.current_timestamp_
  | ici client => client.current_timestamp_

/-- The values among what a client has printed. -/
def values : AnyClient → List Bytes
  | ruc client => client.printed.filterMap fun
      | .printed (.value v) => some v
      | _ => none
  | rc client => client.printed.filterMap fun
      | .value v => some v
      | _ => none
  | ici client => client.printed.filterMap fun
      | .value v => some v
      | _ => none

end AnyClient

/-! ### The abstract client -/

/-- What a client knows: its timestamp, its puts that it has not sent, the values that it keeps
for repeated reads, and what it has printed. -/
structure ClientView where
  timestamp : ℤ
  own : Bytes → Option Bytes
  cached : Bytes → Option Bytes
  values : List Bytes

namespace ClientView

/-- A value is printed. -/
def print (view : ClientView) (v : Bytes) : ClientView :=
  { view with values := view.values ++ [v] }

/-- A put is buffered. -/
def buffer (view : ClientView) (k v : Bytes) : ClientView :=
  { view with own := Function.update view.own k (some v) }

/-- A value is kept. -/
def keep (view : ClientView) (k v : Bytes) : ClientView :=
  { view with cached := Function.update view.cached k (some v) }

/-- Both buffers are cleared. -/
def clear (view : ClientView) : ClientView :=
  { view with own := fun _ => none, cached := fun _ => none }

end ClientView

/-- What a client knows. -/
def AnyClient.view (client : AnyClient) : ClientView where
  timestamp := client.current_timestamp_
  own :=
    match client with
    | ruc _ => fun _ => none
    | rc client => client.write_buffer_.lookup
    | ici client => client.write_buffer_.lookup
  cached :=
    match client with
    | ruc _ | rc _ => fun _ => none
    | ici client => client.read_buffer_.lookup
  values := client.values

/-- What a command of the abstract client does, with the request that it sends. -/
inductive Commanded (view : ClientView) :
    ClientCommand → Option Request → ClientView → Prop
  | begin : Commanded view .begin (some .beginTransaction) view
  | own {k v : Bytes} (h : view.own k = some v) : Commanded view (.get k) none (view.print v)
  | cached {k v : Bytes} (hown : view.own k = none) (h : view.cached k = some v) :
      Commanded view (.get k) none (view.print v)
  | ask {k : Bytes} (hown : view.own k = none) (h : view.cached k = none) :
      Commanded view (.get k) (some (.get k)) view
  | refuse (k v : Bytes) (h : view.timestamp = -1) : Commanded view (.put k v) none view
  | buffer (k v : Bytes) (h : view.timestamp ≠ -1) :
      Commanded view (.put k v) none (view.buffer k v)
  | put (k v : Bytes) (t : Int64) (h : view.timestamp ≠ -1) (hown : view.own = fun _ => none)
      (hcached : view.cached = fun _ => none) :
      Commanded view (.put k v) (some (.put t [⟨k, v⟩])) view
  | ignore : Commanded view .end_ none view
  | end_ (t : Int64) {kv_pair : List KeyValuePair}
      (h : ∀ p ∈ kv_pair, view.own p.key = some p.value) :
      Commanded view .end_ (some (.put t kv_pair)) view

/-- What the abstract client does with the response to a command. -/
inductive Received (kind : ClientKind) (view : ClientView) (response : Response) :
    ClientCommand → ClientView → Prop
  | begin (t : ℤ) : Received kind view response .begin { view with timestamp := t }
  | fail (k : Bytes) (h : response.succeed.getD false = false) :
      Received kind view response (.get k) view
  | found (k : Bytes) (h : response.succeed.getD false = true) (hkind : kind ≠ .ici) :
      Received kind view response (.get k) (view.print (response.value.getD []))
  | keep (k : Bytes) (h : response.succeed.getD false = true) :
      Received kind view response (.get k)
        ((view.keep k (response.value.getD [])).print (response.value.getD []))
  | put (k v : Bytes) (hown : view.own = fun _ => none) (hcached : view.cached = fun _ => none) :
      Received kind view response (.put k v) view
  | end_ : Received kind view response .end_ view.clear

/-- The client waits for the response to the command, or for none. -/
def AnyClient.Awaits : AnyClient → Option ClientCommand → Prop
  | ruc client, none => client.waiting = none
  | ruc client, some .begin => client.waiting = some .begin
  | ruc client, some (.get _) => client.waiting = some .get
  | ruc client, some (.put _ _) => client.waiting = some .put
  | ruc _, some .end_ => False
  | rc client, none => client.waiting = none
  | rc client, some .begin => client.waiting = some .begin
  | rc client, some (.get _) => client.waiting = some .get
  | rc _, some (.put _ _) => False
  | rc client, some .end_ => client.waiting = some .end_
  | ici client, none => client.waiting = none
  | ici client, some .begin => client.waiting = some .begin
  | ici client, some (.get k) => client.waiting = some (.get k)
  | ici _, some (.put _ _) => False
  | ici client, some .end_ => client.waiting = some .end_

/-- What is in a buffer. -/
theorem exists_lookup_of_count {m : UnorderedMap Bytes Bytes} {k : Bytes} (h : m.count k ≠ 0) :
    ∃ v, m.lookup k = some v := by
  rw [Ne, UnorderedMap.count_eq_zero] at h
  exact Option.ne_none_iff_exists'.mp h

/-- What `end()` sends is what has been buffered. -/
theorem lookup_of_mem_pairs {m : UnorderedMap Bytes Bytes} {p : KeyValuePair}
    (h : p ∈ m.entries.map fun kv => (⟨kv.1, kv.2⟩ : KeyValuePair)) :
    m.lookup p.key = some p.value := by
  obtain ⟨kv, hkv, rfl⟩ := List.mem_map.mp h
  exact AList.mem_lookup_iff.mpr hkv

/-- A buffer after an assignment. -/
theorem lookup_insert_eq (m : UnorderedMap Bytes Bytes) (k v : Bytes) :
    (m.insert k v).lookup = Function.update m.lookup k (some v) := by
  funext k'
  by_cases hk : k' = k
  · subst hk
    rw [AList.lookup_insert, Function.update_self]
  · rw [AList.lookup_insert_ne hk, Function.update_of_ne hk]

/-- What a `RucClient` is to its user after it has printed a value. -/
theorem ruc_print (client : RucClient) (w : Option RucWaiting) (v : Bytes) :
    (AnyClient.ruc { client with
      waiting := w, printed := client.printed ++ [.printed (.value v)] }).view =
      (AnyClient.ruc client).view.print v := by
  simp [AnyClient.view, AnyClient.values, ClientView.print, AnyClient.current_timestamp_]

/-- What an `RcClient` is to its user after it has printed a value. -/
theorem rc_print (client : RcClient) (w : Option Waiting) (v : Bytes) :
    (AnyClient.rc { client with waiting := w, printed := client.printed ++ [.value v] }).view =
      (AnyClient.rc client).view.print v := by
  simp [AnyClient.view, AnyClient.values, ClientView.print, AnyClient.current_timestamp_]

/-- What an `IciClient` is to its user after it has printed a value. -/
theorem ici_print (client : IciClient) (w : Option IciWaiting) (v : Bytes) :
    (AnyClient.ici { client with waiting := w, printed := client.printed ++ [.value v] }).view =
      (AnyClient.ici client).view.print v := by
  simp [AnyClient.view, AnyClient.values, ClientView.print, AnyClient.current_timestamp_]

/-- A command of a `RucClient` is one of the abstract client. -/
theorem commanded_ruc (client : RucClient) (c : ClientCommand) :
    Commanded (AnyClient.ruc client).view c (client.command c).1
      (AnyClient.ruc (client.command c).2).view := by
  cases c with
  | begin => exact .begin
  | get k => exact .ask rfl rfl
  | put k v =>
      simp only [RucClient.command]
      split_ifs with ht
      · have hview : (AnyClient.ruc { client with
            printed := client.printed ++ [.printed .firstRunBegin] }).view =
            (AnyClient.ruc client).view := by
          simp [AnyClient.view, AnyClient.values, AnyClient.current_timestamp_]
        rw [hview]
        exact .refuse k v ht
      · exact .put k v _ ht rfl rfl
  | end_ =>
      have hview : (AnyClient.ruc (client.command .end_).2).view =
          (AnyClient.ruc client).view := by
        simp [RucClient.command, AnyClient.view, AnyClient.values, AnyClient.current_timestamp_]
      rw [hview]
      exact .ignore

/-- A command of an `RcClient` is one of the abstract client. -/
theorem commanded_rc (client : RcClient) (c : ClientCommand) :
    Commanded (AnyClient.rc client).view c (client.command c).1
      (AnyClient.rc (client.command c).2).view := by
  cases c with
  | begin => exact .begin
  | get k =>
      simp only [RcClient.command]
      split_ifs with hcount
      · obtain ⟨v, hv⟩ := exists_lookup_of_count hcount
        rw [hv, Option.getD_some, rc_print client client.waiting v]
        exact .own hv
      · exact .ask (UnorderedMap.count_eq_zero.mp (not_not.mp hcount)) rfl
  | put k v =>
      simp only [RcClient.command]
      split_ifs with ht
      · have hview : (AnyClient.rc { client with
            printed := client.printed ++ [.firstRunBegin] }).view =
            (AnyClient.rc client).view := by
          simp [AnyClient.view, AnyClient.values, AnyClient.current_timestamp_]
        rw [hview]
        exact .refuse k v ht
      · have hview : (AnyClient.rc { client with
            write_buffer_ := client.write_buffer_.insert k v }).view =
            (AnyClient.rc client).view.buffer k v := by
          simp only [AnyClient.view, ClientView.buffer, lookup_insert_eq]
          rfl
        rw [hview]
        exact .buffer k v ht
  | end_ => exact .end_ _ fun p hp => lookup_of_mem_pairs hp

/-- A command of an `IciClient` is one of the abstract client. -/
theorem commanded_ici (client : IciClient) (c : ClientCommand) :
    Commanded (AnyClient.ici client).view c (client.command c).1
      (AnyClient.ici (client.command c).2).view := by
  cases c with
  | begin => exact .begin
  | get k =>
      simp only [IciClient.command]
      split_ifs with hwrite hread
      · obtain ⟨v, hv⟩ := exists_lookup_of_count hwrite
        rw [hv, Option.getD_some, ici_print client client.waiting v]
        exact .own hv
      · obtain ⟨v, hv⟩ := exists_lookup_of_count hread
        rw [hv, Option.getD_some, ici_print client client.waiting v]
        exact .cached (UnorderedMap.count_eq_zero.mp (not_not.mp hwrite)) hv
      · exact .ask (UnorderedMap.count_eq_zero.mp (not_not.mp hwrite))
          (UnorderedMap.count_eq_zero.mp (not_not.mp hread))
  | put k v =>
      simp only [IciClient.command]
      split_ifs with ht
      · have hview : (AnyClient.ici { client with
            printed := client.printed ++ [.firstRunBegin] }).view =
            (AnyClient.ici client).view := by
          simp [AnyClient.view, AnyClient.values, AnyClient.current_timestamp_]
        rw [hview]
        exact .refuse k v ht
      · have hview : (AnyClient.ici { client with
            write_buffer_ := client.write_buffer_.insert k v }).view =
            (AnyClient.ici client).view.buffer k v := by
          simp only [AnyClient.view, ClientView.buffer, lookup_insert_eq]
          rfl
        rw [hview]
        exact .buffer k v ht
  | end_ => exact .end_ _ fun p hp => lookup_of_mem_pairs hp

/-- **The commands of the clients** are those of the abstract client. -/
theorem commanded (client : AnyClient) (c : ClientCommand) :
    Commanded client.view c (client.command c).1 (client.command c).2.view := by
  cases client with
  | ruc client => exact commanded_ruc client c
  | rc client => exact commanded_rc client c
  | ici client => exact commanded_ici client c

/-- A command does not change the kind of a client. -/
theorem command_kind (client : AnyClient) (c : ClientCommand) :
    (client.command c).2.kind = client.kind := by
  cases client <;> rfl

/-- Nor does a response. -/
theorem receive_kind (client : AnyClient) (r : Response) :
    (client.receive r).kind = client.kind := by
  cases client <;> rfl

/-- A client that has sent a request waits for its response. -/
theorem command_awaits {client : AnyClient} (h : client.Awaits none) (c : ClientCommand) :
    (client.command c).2.Awaits ((client.command c).1.map fun _ => c) := by
  cases client with
  | ruc client =>
      cases c with
      | put k v =>
          simp only [AnyClient.command, RucClient.command]
          split_ifs
          · exact h
          · rfl
      | begin => rfl
      | get k => rfl
      | end_ => exact h
  | rc client =>
      cases c with
      | get k =>
          simp only [AnyClient.command, RcClient.command]
          split_ifs
          · exact h
          · rfl
      | put k v =>
          simp only [AnyClient.command, RcClient.command]
          split_ifs <;> exact h
      | begin => rfl
      | end_ => rfl
  | ici client =>
      cases c with
      | get k =>
          simp only [AnyClient.command, IciClient.command]
          split_ifs
          · exact h
          · exact h
          · rfl
      | put k v =>
          simp only [AnyClient.command, IciClient.command]
          split_ifs <;> exact h
      | begin => rfl
      | end_ => rfl

/-- A response to a `RucClient` is one to the abstract client, and ends the command. -/
theorem received_ruc {client : RucClient} {c : ClientCommand}
    (h : (AnyClient.ruc client).Awaits (some c)) (r : Response) :
    Received .ruc (AnyClient.ruc client).view r c (AnyClient.ruc (client.receive r)).view ∧
      (AnyClient.ruc (client.receive r)).Awaits none := by
  cases c with
  | begin =>
      have hw : client.waiting = some .begin := h
      simp only [RucClient.receive, hw]
      split_ifs
      · refine ⟨?_, rfl⟩
        have hview : Received .ruc (AnyClient.ruc client).view r .begin _ :=
          .begin (narrow (r.timestamp.getD 0))
        simpa [AnyClient.view, AnyClient.values, AnyClient.current_timestamp_] using hview
      · refine ⟨?_, rfl⟩
        have hview : Received .ruc (AnyClient.ruc client).view r .begin _ :=
          .begin client.current_timestamp_
        simpa [AnyClient.view, AnyClient.values, AnyClient.current_timestamp_] using hview
  | get k =>
      have hw : client.waiting = some .get := h
      simp only [RucClient.receive, hw]
      split_ifs with hsucceed
      · rw [ruc_print]
        exact ⟨.found k hsucceed (by simp), rfl⟩
      · refine ⟨?_, rfl⟩
        have hview : Received .ruc (AnyClient.ruc client).view r (.get k) _ :=
          .fail k (by simpa using hsucceed)
        simpa [AnyClient.view, AnyClient.values, AnyClient.current_timestamp_] using hview
  | put k v =>
      have hw : client.waiting = some .put := h
      simp only [RucClient.receive, hw]
      refine ⟨?_, rfl⟩
      have hview : Received .ruc (AnyClient.ruc client).view r (.put k v) _ :=
        .put k v rfl rfl
      split_ifs <;>
        simpa [AnyClient.view, AnyClient.values, AnyClient.current_timestamp_] using hview
  | end_ => exact h.elim

/-- A response to an `RcClient` is one to the abstract client, and ends the command. -/
theorem received_rc {client : RcClient} {c : ClientCommand}
    (h : (AnyClient.rc client).Awaits (some c)) (r : Response) :
    Received .rc (AnyClient.rc client).view r c (AnyClient.rc (client.receive r)).view ∧
      (AnyClient.rc (client.receive r)).Awaits none := by
  cases c with
  | begin =>
      have hw : client.waiting = some .begin := h
      simp only [RcClient.receive, hw]
      split_ifs
      · refine ⟨?_, rfl⟩
        have hview : Received .rc (AnyClient.rc client).view r .begin _ :=
          .begin (narrow (r.timestamp.getD 0))
        simpa [AnyClient.view, AnyClient.values, AnyClient.current_timestamp_] using hview
      · refine ⟨?_, rfl⟩
        have hview : Received .rc (AnyClient.rc client).view r .begin _ :=
          .begin client.current_timestamp_
        simpa [AnyClient.view, AnyClient.values, AnyClient.current_timestamp_] using hview
  | get k =>
      have hw : client.waiting = some .get := h
      simp only [RcClient.receive, hw]
      split_ifs with hsucceed
      · rw [rc_print]
        exact ⟨.found k hsucceed (by simp), rfl⟩
      · refine ⟨?_, rfl⟩
        have hview : Received .rc (AnyClient.rc client).view r (.get k) _ :=
          .fail k (by simpa using hsucceed)
        simpa [AnyClient.view, AnyClient.values, AnyClient.current_timestamp_] using hview
  | put k v => exact h.elim
  | end_ =>
      have hw : client.waiting = some .end_ := h
      simp only [RcClient.receive, hw]
      refine ⟨?_, rfl⟩
      have hview : Received .rc (AnyClient.rc client).view r .end_ _ :=
        .end_
      have hempty : (∅ : UnorderedMap Bytes Bytes).lookup = fun _ => none := rfl
      split_ifs <;>
        simpa [AnyClient.view, AnyClient.values, AnyClient.current_timestamp_, ClientView.clear,
          hempty] using hview

/-- A response to an `IciClient` is one to the abstract client, and ends the command. -/
theorem received_ici {client : IciClient} {c : ClientCommand}
    (h : (AnyClient.ici client).Awaits (some c)) (r : Response) :
    Received .ici (AnyClient.ici client).view r c (AnyClient.ici (client.receive r)).view ∧
      (AnyClient.ici (client.receive r)).Awaits none := by
  cases c with
  | begin =>
      have hw : client.waiting = some .begin := h
      simp only [IciClient.receive, hw]
      split_ifs
      · refine ⟨?_, rfl⟩
        have hview : Received .ici (AnyClient.ici client).view r .begin _ :=
          .begin (narrow (r.timestamp.getD 0))
        simpa [AnyClient.view, AnyClient.values, AnyClient.current_timestamp_] using hview
      · refine ⟨?_, rfl⟩
        have hview : Received .ici (AnyClient.ici client).view r .begin _ :=
          .begin client.current_timestamp_
        simpa [AnyClient.view, AnyClient.values, AnyClient.current_timestamp_] using hview
  | get k =>
      have hw : client.waiting = some (.get k) := h
      simp only [IciClient.receive, hw]
      split_ifs with hsucceed
      · refine ⟨?_, rfl⟩
        have hview : Received .ici (AnyClient.ici client).view r (.get k) _ :=
          .keep k hsucceed
        simpa [AnyClient.view, AnyClient.values, AnyClient.current_timestamp_, ClientView.keep,
          ClientView.print, lookup_insert_eq] using hview
      · refine ⟨?_, rfl⟩
        have hview : Received .ici (AnyClient.ici client).view r (.get k) _ :=
          .fail k (by simpa using hsucceed)
        simpa [AnyClient.view, AnyClient.values, AnyClient.current_timestamp_] using hview
  | put k v => exact h.elim
  | end_ =>
      have hw : client.waiting = some .end_ := h
      simp only [IciClient.receive, hw]
      refine ⟨?_, rfl⟩
      have hview : Received .ici (AnyClient.ici client).view r .end_ _ :=
        .end_
      have hempty : (∅ : UnorderedMap Bytes Bytes).lookup = fun _ => none := rfl
      split_ifs <;>
        simpa [AnyClient.view, AnyClient.values, AnyClient.current_timestamp_, ClientView.clear,
          hempty] using hview

/-- **What the clients do with a response** is what the abstract client does. -/
theorem received {client : AnyClient} {c : ClientCommand} (h : client.Awaits (some c))
    (r : Response) :
    Received client.kind client.view r c (client.receive r).view ∧
      (client.receive r).Awaits none := by
  cases client with
  | ruc client => exact received_ruc h r
  | rc client => exact received_rc h r
  | ici client => exact received_ici h r

end LatticeFlow
