import LatticeFlow.ClientView
import LatticeFlow.GossipLifetime
import LatticeFlow.Split

/-!
# Client Sessions

Any number of clients of the key-value store with the four server threads. Each client is a
`RucClient`, an `RcClient` or an `IciClient` and runs `repl` of `key_value_stores/client.cc`:
it reads a line, takes it for a command or calls it invalid, and runs the command to its end
before it reads the next line. Requests are processed by whichever thread the broker routes
them to.

The history lists the puts that were accepted, the PUTs that were sent, and the values that
the `get`s have printed. What a client has put and not sent (`ownPut`), and what it has read
since it sent its last PUT (`cutRead`), can be read off the history, and is what the abstract
client of `LatticeFlow.ClientView` knows (`ViewInv`).

## Main results

* `ViewInv.commanded`, `ViewInv.received`: a client keeps knowing what the history says.
* `sessions_isolate`: what a `get` prints, in every run.
* `sessions_store_words`: what the threads store.
-/

namespace LatticeFlow

/-! ### The system -/

/-- What happens in a session. -/
inductive SessionEvent (ι : Type)
  /-- `put(k, v)` of client `c` was accepted. -/
  | put (c : ι) (k v : Bytes)
  /-- Client `c` has sent a PUT. -/
  | sent (c : ι)
  /-- `get(k)` of client `c` has printed `v`. -/
  | read (c : ι) (k v : Bytes)
  deriving DecidableEq, Repr

/-- The clients with the commands whose responses they wait for, the server threads, the
requests and responses under way, and the history. -/
structure Sessions (ι : Type) where
  clients : ι → AnyClient
  issued : ι → Option ClientCommand
  cluster : Cluster
  requests : List (ι × Request)
  responses : List (ι × Response)
  history : List (SessionEvent ι)

/-- A step: client `c` reads a line, the request at position `n` is processed by thread `i`,
the gossip message at position `n` is received, or the response at position `n` is. -/
inductive SessionAction (ι : Type)
  | line (c : ι) (input : Bytes)
  | serve (n : ℕ) (i : ThreadId)
  | gossip (n : ℕ)
  | respond (n : ℕ)

namespace Sessions

variable {ι : Type} [DecidableEq ι]

/-- A put that the client does not refuse. -/
def putEvents (c : ι) (client : AnyClient) : ClientCommand → List (SessionEvent ι)
  | .put k v => if client.current_timestamp_ = -1 then [] else [.put c k v]
  | _ => []

/-- A PUT. -/
def sentEvents (c : ι) : Option Request → List (SessionEvent ι)
  | some (.put _ _) => [.sent c]
  | _ => []

/-- The values that a client has printed in a `get`. -/
def readEvents (c : ι) (client client' : AnyClient) : ClientCommand → List (SessionEvent ι)
  | .get k => (client'.values.drop client.values.length).map (.read c k)
  | _ => []

/-- Client `c` runs a command, up to the request that it sends if it sends one. -/
def command (s : Sessions ι) (c : ι) (command : ClientCommand) : Sessions ι :=
  let (request, client) := (s.clients c).command command
  { s with
    clients := Function.update s.clients c client
    issued := Function.update s.issued c (request.map fun _ => command)
    requests := s.requests ++ request.toList.map fun r => (c, r)
    history := s.history ++ putEvents c (s.clients c) command ++ sentEvents c request ++
      readEvents c (s.clients c) client command }

/-- Client `c` reads a line; an invalid one has no effect. -/
def line (s : Sessions ι) (c : ι) (input : Bytes) : Option (Sessions ι) :=
  match s.issued c, replCommand input with
  | some _, _ => none
  | none, none => some s
  | none, some command => some (s.command c command)

/-- The request at position `n` is processed by thread `i`. -/
def serve (s : Sessions ι) (n : ℕ) (i : ThreadId) : Option (Sessions ι) :=
  match s.requests[n]? with
  | none => none
  | some (c, request) =>
      (s.cluster.request i request).map fun r =>
        { s with
          cluster := r.2
          requests := s.requests.eraseIdx n
          responses := s.responses ++ [(c, r.1)] }

/-- The response at position `n` reaches its client, which ends its command. -/
def respond (s : Sessions ι) (n : ℕ) : Option (Sessions ι) :=
  match s.responses[n]? with
  | none => none
  | some (c, response) =>
      (s.issued c).map fun command =>
        let client := (s.clients c).receive response
        { s with
          clients := Function.update s.clients c client
          issued := Function.update s.issued c none
          responses := s.responses.eraseIdx n
          history := s.history ++ readEvents c (s.clients c) client command }

end Sessions

/-- The machine of the clients, each of its kind, and the four threads. -/
def sessions {ι : Type} [DecidableEq ι] (kind : ι → ClientKind) :
    Machine (Sessions ι) (SessionAction ι) where
  init := ⟨fun c => .init (kind c), fun _ => none, cluster.init, [], [], []⟩
  step s
    | .line c input => s.line c input
    | .serve n i => s.serve n i
    | .gossip n => (cluster.step s.cluster (.deliver n)).map fun c => { s with cluster := c }
    | .respond n => s.respond n

/-! ### What the history says of a client -/

section History

variable {ι : Type} [DecidableEq ι]

/-- What client `c` has put for `k` and not sent. -/
def ownPut (c : ι) (k : Bytes) (h : List (SessionEvent ι)) : Option Bytes :=
  h.foldl (fun own e =>
    match e with
    | .put c' k' v => if c' = c ∧ k' = k then some v else own
    | .sent c' => if c' = c then none else own
    | .read _ _ _ => own) none

/-- What the last `get(k)` of client `c` has printed since its last PUT. -/
def cutRead (c : ι) (k : Bytes) (h : List (SessionEvent ι)) : Option Bytes :=
  h.foldl (fun cut e =>
    match e with
    | .put _ _ _ => cut
    | .sent c' => if c' = c then none else cut
    | .read c' k' v => if c' = c ∧ k' = k then some v else cut) none

/-- The values that the `get`s of client `c` have printed. -/
def readsOf (c : ι) (h : List (SessionEvent ι)) : List Bytes :=
  h.filterMap fun
    | .read c' _ v => if c' = c then some v else none
    | _ => none

/-- Some client has sent `v` for `k`, and it was the last value that it had put there and not sent
before. -/
def SentLast (h : List (SessionEvent ι)) (k v : Bytes) : Prop :=
  SomeAfter (fun past e => ∃ c, e = .sent c ∧ ownPut c k past = some v) h

/-- The client whose event it is. -/
def SessionEvent.client : SessionEvent ι → ι
  | .put c _ _ => c
  | .sent c => c
  | .read c _ _ => c

variable {c c' : ι} {k k' v : Bytes} {h : List (SessionEvent ι)}

@[simp] theorem ownPut_put : ownPut c k (h ++ [.put c' k' v]) =
    if c' = c ∧ k' = k then some v else ownPut c k h := by
  simp [ownPut]

@[simp] theorem ownPut_sent :
    ownPut c k (h ++ [.sent c']) = if c' = c then none else ownPut c k h := by
  simp [ownPut]

@[simp] theorem ownPut_read : ownPut c k (h ++ [.read c' k' v]) = ownPut c k h := by
  simp [ownPut]

@[simp] theorem cutRead_put : cutRead c k (h ++ [.put c' k' v]) = cutRead c k h := by
  simp [cutRead]

@[simp] theorem cutRead_sent :
    cutRead c k (h ++ [.sent c']) = if c' = c then none else cutRead c k h := by
  simp [cutRead]

@[simp] theorem cutRead_read : cutRead c k (h ++ [.read c' k' v]) =
    if c' = c ∧ k' = k then some v else cutRead c k h := by
  simp [cutRead]

/-- Events of other clients are no reads of this one. -/
theorem readsOf_append_other {l : List (SessionEvent ι)} (hl : ∀ e ∈ l, e.client ≠ c) :
    readsOf c (h ++ l) = readsOf c h := by
  have hnone : readsOf c l = [] := by
    refine List.filterMap_eq_nil_iff.mpr fun e he => ?_
    have hne := hl e he
    cases e with
    | put c' k' v => rfl
    | sent c' => rfl
    | read c' k' v => exact if_neg hne
  rw [readsOf, List.filterMap_append, ← readsOf, ← readsOf, hnone, List.append_nil]

/-- Events of other clients do not concern a client. -/
theorem ownPut_append_other {l : List (SessionEvent ι)} (hl : ∀ e ∈ l, e.client ≠ c) :
    ownPut c k (h ++ l) = ownPut c k h := by
  induction l using List.reverseRecOn with
  | nil => rw [List.append_nil]
  | append_singleton l e ih =>
      have hrest := ih fun e' he' => hl e' (List.mem_append_left _ he')
      have he : e.client ≠ c := hl e (by simp)
      rw [← List.append_assoc]
      cases e with
      | put c' k' v =>
          have hne : ¬ (c' = c ∧ k' = k) := fun heq => he heq.1
          rw [ownPut_put, if_neg hne, hrest]
      | sent c' =>
          have hne : c' ≠ c := he
          rw [ownPut_sent, if_neg hne, hrest]
      | read c' k' v => rw [ownPut_read, hrest]

/-- Nor do they change what it has read since its last PUT. -/
theorem cutRead_append_other {l : List (SessionEvent ι)} (hl : ∀ e ∈ l, e.client ≠ c) :
    cutRead c k (h ++ l) = cutRead c k h := by
  induction l using List.reverseRecOn with
  | nil => rw [List.append_nil]
  | append_singleton l e ih =>
      have hrest := ih fun e' he' => hl e' (List.mem_append_left _ he')
      have he : e.client ≠ c := hl e (by simp)
      rw [← List.append_assoc]
      cases e with
      | put c' k' v => rw [cutRead_put, hrest]
      | sent c' =>
          have hne : c' ≠ c := he
          rw [cutRead_sent, if_neg hne, hrest]
      | read c' k' v =>
          have hne : ¬ (c' = c ∧ k' = k) := fun heq => he heq.1
          rw [cutRead_read, if_neg hne, hrest]

/-- What has been sent stays sent. -/
theorem SentLast.append (hv : SentLast h k v) (l : List (SessionEvent ι)) :
    SentLast (h ++ l) k v := by
  obtain ⟨p, e, q, rfl, he⟩ := hv
  exact ⟨p, e, q ++ l, by simp, he⟩

/-- Sending what has been put. -/
theorem SentLast.sent (hv : ownPut c k h = some v) : SentLast (h ++ [.sent c]) k v :=
  someAfter_append.mpr (.inr ⟨c, rfl, hv⟩)

/-- **Isolation**: a `get(k)` prints what the client itself has put for `k` and not sent, and
if there is no such put, a value that some client has sent, as the last value it had put for
`k`; an `IciClient` prints what it has printed before, if it has since its last PUT. -/
def Isolated (kind : ι → ClientKind) (past : List (SessionEvent ι)) (e : SessionEvent ι) : Prop :=
  ∀ c k v, e = .read c k v →
    ownPut c k past = some v ∨
    ownPut c k past = none ∧ SentLast past k v ∧
      (kind c = .ici → ∀ v', cutRead c k past = some v' → v' = v)

end History

/-! ### What a client knows -/

section View

variable {ι : Type} [DecidableEq ι]

/-- A client that waits for the response to a command, or for none, knows what the history
says of it. When it has sent its puts it keeps them until the response is there. -/
structure ViewInv (kind : ι → ClientKind) (h : List (SessionEvent ι)) (c : ι) (view : ClientView)
    (issued : Option ClientCommand) : Prop where
  own : ∀ k, ownPut c k h = if issued = some .end_ then none else view.own k
  cut : kind c = .ici → ∀ k, ownPut c k h = none →
    cutRead c k h = if issued = some .end_ then none else view.cached k
  asked : ∀ k, issued = some (.get k) → view.own k = none ∧ view.cached k = none
  cached : ∀ k v, view.cached k = some v → SentLast h k v
  values : view.values = readsOf c h

variable {kind : ι → ClientKind} {h : List (SessionEvent ι)} {c : ι} {view view' : ClientView}
  {issued : Option ClientCommand} {k v : Bytes}

/-- Other clients. -/
theorem ViewInv.append_other (hv : ViewInv kind h c view issued) {l : List (SessionEvent ι)}
    (hl : ∀ e ∈ l, e.client ≠ c) : ViewInv kind (h ++ l) c view issued := by
  refine ⟨fun k => ?_, fun hkind k hown => ?_, hv.asked, fun k v hk => (hv.cached k v hk).append l,
    hv.values.trans (readsOf_append_other hl).symm⟩
  · rw [ownPut_append_other hl, hv.own]
  · rw [ownPut_append_other hl] at hown
    rw [cutRead_append_other hl, hv.cut hkind k hown]

/-- The events of a command. -/
def commandEvents (c : ι) (view : ClientView) (command : ClientCommand)
    (request : Option Request) (view' : ClientView) : List (SessionEvent ι) :=
  (match command with
    | .put k v => if view.timestamp = -1 then [] else [.put c k v]
    | _ => []) ++
  Sessions.sentEvents c request ++
  match command with
  | .get k => (view'.values.drop view.values.length).map (.read c k)
  | _ => []

/-- What a step of client `c` with the events `l` leaves behind. -/
structure ViewStep (kind : ι → ClientKind) (h l : List (SessionEvent ι)) (c : ι)
    (view' : ClientView) (issued : Option ClientCommand) : Prop where
  inv : ViewInv kind (h ++ l) c view' issued
  isolated : EachAfter (Isolated kind) h → EachAfter (Isolated kind) (h ++ l)

/-- Nothing happens. -/
theorem ViewInv.silent (hv : ViewInv kind h c view issued) :
    ViewStep kind h [] c view issued := by
  refine ⟨?_, fun hh => ?_⟩
  · rwa [List.append_nil]
  · rwa [List.append_nil]

/-- **A value is printed**: the client's own put, or a value that has been sent and that is the
one the client keeps, if it keeps values. -/
theorem ViewInv.read (hv : ViewInv kind h c view issued) (hend : issued ≠ some .end_)
    (hvalues : view'.values = view.values ++ [v]) (hown : view'.own = view.own)
    (hother : ∀ k', k' ≠ k → view'.cached k' = view.cached k')
    (hkept : kind c = .ici → view.own k = none → view'.cached k = some v)
    (hsent : ∀ v', view'.cached k = some v' → SentLast h k v')
    (hread : view.own k = some v ∨ view.own k = none ∧ SentLast h k v ∧
      (kind c = .ici → ∀ v', view.cached k = some v' → v' = v)) :
    ViewStep kind h [.read c k v] c view' none := by
  have hownPut : ∀ k', ownPut c k' h = view.own k' := fun k' => by rw [hv.own, if_neg hend]
  have hcutRead : kind c = .ici → ∀ k', view.own k' = none → cutRead c k' h = view.cached k' := by
    intro hkind k' hk'
    rw [hv.cut hkind k' ((hownPut k').trans hk'), if_neg hend]
  refine ⟨⟨fun k' => ?_, fun hkind k' hnone => ?_, by simp, fun k' v' hk' => ?_, ?_⟩,
    fun hh => hh.append ?_⟩
  · rw [ownPut_read, hownPut, hown]
    rfl
  · rw [ownPut_read, hownPut] at hnone
    rw [cutRead_read, hcutRead hkind k' hnone]
    by_cases hk : k = k'
    · subst hk
      rw [if_pos ⟨rfl, rfl⟩, hkept hkind hnone]
      rfl
    · rw [if_neg fun heq => hk heq.2, hother k' (Ne.symm hk)]
      rfl
  · refine SentLast.append ?_ _
    by_cases hk : k' = k
    · subst hk
      exact hsent v' hk'
    · exact hv.cached k' v' (hother k' hk ▸ hk')
  · simp [hvalues, hv.values, readsOf]
  · rintro c' k' v' ⟨⟩
    rw [hownPut]
    rcases hread with hread | ⟨hnone, hcommitted, hcut⟩
    · exact .inl hread
    · refine .inr ⟨hnone, hcommitted, fun hkind v' hv' => hcut hkind v' ?_⟩
      rw [← hcutRead hkind k hnone, hv']

/-- A put is buffered. -/
theorem ViewInv.buffer (hv : ViewInv kind h c view none) (k v : Bytes) :
    ViewStep kind h [.put c k v] c (view.buffer k v) none := by
  refine ⟨⟨fun k' => ?_, fun hkind k' hnone => ?_, by simp, fun k' v' hk' =>
    (hv.cached k' v' hk').append _, ?_⟩, fun hh => hh.append (by rintro c' k' v' ⟨⟩)⟩
  · rw [ownPut_put, hv.own]
    by_cases hk : k = k'
    · simp [hk, ClientView.buffer]
    · simp [hk, Ne.symm hk, ClientView.buffer]
  · rw [ownPut_put] at hnone
    split_ifs at hnone
    rw [cutRead_put, hv.cut hkind k' hnone]
    rfl
  · simp [ClientView.buffer, hv.values, readsOf]

/-- A put is sent at once, by a client that keeps nothing. -/
theorem ViewInv.putSent (hv : ViewInv kind h c view none) (k v : Bytes)
    (hown : view.own = fun _ => none) (hcached : view.cached = fun _ => none) :
    ViewStep kind h ([.put c k v] ++ [.sent c]) c view (some (.put k v)) := by
  refine ⟨⟨fun k' => ?_, fun hkind k' hnone => ?_, by simp, fun k' v' hk' => ?_, ?_⟩,
    fun hh => ?_⟩
  · rw [← List.append_assoc, ownPut_sent, if_pos rfl, hown]
    rfl
  · rw [← List.append_assoc, cutRead_sent, if_pos rfl, hcached]
    rfl
  · simp [hcached] at hk'
  · simp [hv.values, readsOf]
  · rw [← List.append_assoc]
    exact (hh.append (by rintro c' k' v' ⟨⟩)).append (by rintro c' k' v' ⟨⟩)

/-- What has been buffered is sent, and kept until the response is there. -/
theorem ViewInv.endSent (hv : ViewInv kind h c view none) :
    ViewStep kind h [.sent c] c view (some .end_) := by
  refine ⟨⟨fun k => ?_, fun hkind k hnone => ?_, by simp, fun k v hk =>
    (hv.cached k v hk).append _, ?_⟩, fun hh => hh.append (by rintro c' k v ⟨⟩)⟩
  · simp
  · simp
  · simp [hv.values, readsOf]

/-- **A command** of a client that knows what the history says. -/
theorem ViewInv.commanded (hv : ViewInv kind h c view none) {command : ClientCommand}
    {request : Option Request} (hc : Commanded view command request view') :
    ViewStep kind h (commandEvents c view command request view') c view'
        (request.map fun _ => command) ∧
      (∀ t kv_pair, request = some (.put t kv_pair) → ∀ p ∈ kv_pair,
        SentLast (h ++ commandEvents c view command request view') p.key p.value) ∧
      ∀ k r, request.map (fun _ => command) = some (.get k) → request = some r → r = .get k := by
  have hownPut : ∀ k, ownPut c k h = view.own k := fun k => by rw [hv.own]; rfl
  cases hc with
  | begin =>
      refine ⟨?_, by simp, by simp⟩
      have hissued : ViewInv kind h c view (some .begin) :=
        ⟨hv.own, hv.cut, by simp, hv.cached, hv.values⟩
      simpa [commandEvents, Sessions.sentEvents] using hissued.silent
  | @own k v hk =>
      refine ⟨?_, by simp, by simp⟩
      have hstep : ViewStep kind h [.read c k v] c (view.print v) none :=
        hv.read (by simp) rfl rfl (fun _ _ => rfl) (by simp [hk]) (hv.cached k) (.inl hk)
      simpa [commandEvents, Sessions.sentEvents, ClientView.print] using hstep
  | @cached k v hown hk =>
      refine ⟨?_, by simp, by simp⟩
      have hstep : ViewStep kind h [.read c k v] c (view.print v) none :=
        hv.read (by simp) rfl rfl (fun _ _ => rfl) (fun _ _ => hk) (hv.cached k)
          (.inr ⟨hown, hv.cached k v hk, fun _ v' hv' => by simpa [hk] using hv'.symm⟩)
      simpa [commandEvents, Sessions.sentEvents, ClientView.print] using hstep
  | @ask k hown hk =>
      refine ⟨?_, by simp, by simp⟩
      have hissued : ViewInv kind h c view (some (.get k)) :=
        ⟨hv.own, hv.cut, by rintro k' ⟨⟩; exact ⟨hown, hk⟩, hv.cached, hv.values⟩
      simpa [commandEvents, Sessions.sentEvents] using hissued.silent
  | refuse k v ht =>
      refine ⟨?_, by simp, by simp⟩
      simpa [commandEvents, Sessions.sentEvents, ht] using hv.silent
  | buffer k v ht =>
      refine ⟨?_, by simp, by simp⟩
      simpa [commandEvents, Sessions.sentEvents, ht] using hv.buffer k v
  | put k v t ht hown hcached =>
      have hevents : commandEvents c view (.put k v) (some (.put t [⟨k, v⟩])) view =
          [.put c k v] ++ [.sent c] := by
        simp [commandEvents, Sessions.sentEvents, ht]
      rw [hevents]
      refine ⟨hv.putSent k v hown hcached, ?_, by simp⟩
      rintro t' kv_pair ⟨⟩ p hp
      obtain rfl := List.mem_singleton.mp hp
      rw [← List.append_assoc]
      exact SentLast.sent (by simp)
  | ignore =>
      refine ⟨?_, by simp, by simp⟩
      simpa [commandEvents, Sessions.sentEvents] using hv.silent
  | @end_ t kv_pair hpairs =>
      have hevents : commandEvents c view .end_ (some (.put t kv_pair)) view = [.sent c] := by
        simp [commandEvents, Sessions.sentEvents]
      rw [hevents]
      refine ⟨hv.endSent, ?_, by simp⟩
      rintro t' kv_pair' ⟨⟩ p hp
      exact SentLast.sent ((hownPut p.key).trans (hpairs p hp))

/-- The events of a response. -/
def responseEvents (c : ι) (view view' : ClientView) : ClientCommand → List (SessionEvent ι)
  | .get k => (view'.values.drop view.values.length).map (.read c k)
  | _ => []

/-- **A response** to a command. -/
theorem ViewInv.received {command : ClientCommand} (hv : ViewInv kind h c view (some command))
    {response : Response} (hr : Received (kind c) view response command view')
    (hresponse : response.succeed.getD false = true → ∀ k, command = .get k →
      SentLast h k (response.value.getD [])) :
    ViewStep kind h (responseEvents c view view' command) c view' none := by
  cases hr with
  | begin t => exact ViewInv.silent ⟨hv.own, hv.cut, by simp, hv.cached, hv.values⟩
  | fail k hsucceed =>
      have hidle : ViewInv kind h c view none := ⟨hv.own, hv.cut, by simp, hv.cached, hv.values⟩
      simpa [responseEvents] using hidle.silent
  | found k hsucceed hkind =>
      obtain ⟨hown, hcached⟩ := hv.asked k rfl
      have hsent := hresponse hsucceed k rfl
      have hstep : ViewStep kind h [.read c k (response.value.getD [])] c
          (view.print (response.value.getD [])) none :=
        hv.read (by simp) rfl rfl (fun _ _ => rfl) (fun h => absurd h hkind) (hv.cached k)
          (.inr ⟨hown, hsent, fun h => absurd h hkind⟩)
      simpa [responseEvents, ClientView.print] using hstep
  | keep k hsucceed =>
      obtain ⟨hown, hcached⟩ := hv.asked k rfl
      have hsent := hresponse hsucceed k rfl
      have hstep : ViewStep kind h [.read c k (response.value.getD [])] c
          ((view.keep k (response.value.getD [])).print (response.value.getD [])) none := by
        refine hv.read (by simp) rfl rfl (fun k' hk' => Function.update_of_ne hk' _ _)
          (fun _ _ => Function.update_self _ _ _) (fun v' hv' => ?_)
          (.inr ⟨hown, hsent, fun _ v' hv' => by simp [hcached] at hv'⟩)
        obtain rfl : response.value.getD [] = v' := by
          simpa [ClientView.print, ClientView.keep] using hv'
        exact hsent
      simpa [responseEvents, ClientView.print, ClientView.keep] using hstep
  | put k v hown hcached =>
      have hidle : ViewInv kind h c view none := ⟨hv.own, hv.cut, by simp, hv.cached, hv.values⟩
      exact hidle.silent
  | end_ =>
      exact ViewInv.silent ⟨hv.own, hv.cut, by simp, by simp [ClientView.clear], hv.values⟩

end View

/-! ### The invariant -/

section Sessions

variable {ι : Type} [DecidableEq ι] {kind : ι → ClientKind} {s s' : Sessions ι}

/-- The value of a database entry has been sent. -/
def SentEntry (h : List (SessionEvent ι)) (k : Bytes) (e : TimestampedStringLattice) : Prop :=
  SentLast h k e.value.get

/-- What is on its way to the threads, stored by them and on its way back has been sent, and a
client has one request under way if it waits for a response, and none otherwise. -/
structure TrafficInv (s : Sessions ι) : Prop where
  reachable : cluster.Reachable s.cluster
  outstanding : ∀ c, (s.requests.map Prod.fst ++ s.responses.map Prod.fst).count c =
    if s.issued c = none then 0 else 1
  asks : ∀ c r, (c, r) ∈ s.requests → ∀ k, s.issued c = some (.get k) → r = .get k
  requests : ∀ c t kv_pair, (c, Request.put t kv_pair) ∈ s.requests →
    ∀ p ∈ kv_pair, SentLast s.history p.key p.value
  stored : ∀ i, EntriesIn (SentEntry s.history) (s.cluster.threads i).kvs
  gossiped : ∀ g ∈ s.cluster.inFlight, EntriesIn (SentEntry s.history) g.db
  responses : ∀ c r, (c, r) ∈ s.responses → r.succeed.getD false = true →
    ∀ k, s.issued c = some (.get k) → SentLast s.history k (r.value.getD [])

/-- The invariant of the sessions. -/
structure SessionInv (kind : ι → ClientKind) (s : Sessions ι) : Prop where
  kinds : ∀ c, (s.clients c).kind = kind c
  awaits : ∀ c, (s.clients c).Awaits (s.issued c)
  views : ∀ c, ViewInv kind s.history c (s.clients c).view (s.issued c)
  traffic : TrafficInv s
  isolated : EachAfter (Isolated kind) s.history

omit [DecidableEq ι] in
/-- The events of a step of client `c` are its own. -/
theorem client_of_mem_commandEvents {c : ι} {view view' : ClientView} {command : ClientCommand}
    {request : Option Request} {e : SessionEvent ι}
    (he : e ∈ commandEvents c view command request view') : e.client = c := by
  simp only [commandEvents, List.mem_append] at he
  obtain (he | he) | he := he
  · split at he
    · split_ifs at he
      · cases he
      · obtain rfl := List.mem_singleton.mp he
        rfl
    · cases he
  · simp only [Sessions.sentEvents] at he
    split at he
    · obtain rfl := List.mem_singleton.mp he
      rfl
    · cases he
  · split at he
    · obtain ⟨v, -, rfl⟩ := List.mem_map.mp he
      rfl
    · cases he

omit [DecidableEq ι] in
/-- The events of a response are those of its client. -/
theorem client_of_mem_responseEvents {c : ι} {view view' : ClientView} {command : ClientCommand}
    {e : SessionEvent ι} (he : e ∈ responseEvents c view view' command) : e.client = c := by
  cases command with
  | get k =>
      obtain ⟨v, -, rfl⟩ := List.mem_map.mp he
      rfl
  | begin => cases he
  | put k v => cases he
  | end_ => cases he

/-- Client `c` moves, and the others do not. -/
theorem SessionInv.move (hs : SessionInv kind s) {c : ι} {l : List (SessionEvent ι)}
    {client : AnyClient} {issued : Option ClientCommand} (hhistory : s'.history = s.history ++ l)
    (hclients : s'.clients = Function.update s.clients c client)
    (hissued : s'.issued = Function.update s.issued c issued) (hl : ∀ e ∈ l, e.client = c)
    (hkind : client.kind = kind c) (hawaits : client.Awaits issued)
    (hstep : ViewStep kind s.history l c client.view issued) (htraffic : TrafficInv s') :
    SessionInv kind s' := by
  refine ⟨fun c' => ?_, fun c' => ?_, fun c' => ?_, htraffic, ?_⟩
  · rw [hclients]
    by_cases hc : c' = c
    · rw [hc, Function.update_self, hkind]
    · rw [Function.update_of_ne hc, hs.kinds]
  · rw [hclients, hissued]
    by_cases hc : c' = c
    · rw [hc, Function.update_self, Function.update_self]
      exact hawaits
    · rw [Function.update_of_ne hc, Function.update_of_ne hc]
      exact hs.awaits c'
  · rw [hclients, hissued, hhistory]
    by_cases hc : c' = c
    · rw [hc, Function.update_self, Function.update_self]
      exact hstep.inv
    · rw [Function.update_of_ne hc, Function.update_of_ne hc]
      exact (hs.views c').append_other fun e he => by rw [hl e he]; exact Ne.symm hc
  · rw [hhistory]
    exact hstep.isolated hs.isolated

/-- A client that waits for nothing has nothing under way. -/
theorem TrafficInv.not_outstanding (ht : TrafficInv s) {c : ι} (hc : s.issued c = none) :
    (∀ r, (c, r) ∉ s.requests) ∧ ∀ r, (c, r) ∉ s.responses := by
  have hcount := ht.outstanding c
  rw [if_pos hc, List.count_eq_zero, List.mem_append, not_or] at hcount
  exact ⟨fun r hr => hcount.1 (List.mem_map_of_mem (f := Prod.fst) hr),
    fun r hr => hcount.2 (List.mem_map_of_mem (f := Prod.fst) hr)⟩

/-- What has been sent stays sent. -/
theorem EntriesIn.sent_append {h : List (SessionEvent ι)} {db : Database}
    (hdb : EntriesIn (SentEntry h) db) (l : List (SessionEvent ι)) :
    EntriesIn (SentEntry (h ++ l)) db :=
  fun k e he => (hdb k e he).append l

/-- A client that waited for nothing has sent a request, or none. -/
theorem TrafficInv.command (ht : TrafficInv s) {c : ι} (hc : s.issued c = none)
    {command : ClientCommand} {request : Option Request} {l : List (SessionEvent ι)}
    (hrequests : s'.requests = s.requests ++ request.toList.map fun r => (c, r))
    (hissued : s'.issued = Function.update s.issued c (request.map fun _ => command))
    (hhistory : s'.history = s.history ++ l) (hcluster : s'.cluster = s.cluster)
    (hresponses : s'.responses = s.responses)
    (hput : ∀ t kv_pair, request = some (.put t kv_pair) → ∀ p ∈ kv_pair,
      SentLast (s.history ++ l) p.key p.value)
    (hget : ∀ k r, request.map (fun _ => command) = some (.get k) → request = some r →
      r = .get k) : TrafficInv s' := by
  obtain ⟨hnoRequest, hnoResponse⟩ := ht.not_outstanding hc
  have hmem : ∀ c' r, (c', r) ∈ s'.requests →
      (c', r) ∈ s.requests ∧ c' ≠ c ∨ c' = c ∧ request = some r := by
    intro c' r hr
    rw [hrequests, List.mem_append] at hr
    rcases hr with hr | hr
    · refine .inl ⟨hr, ?_⟩
      rintro rfl
      exact hnoRequest r hr
    · obtain ⟨r', hr', heq⟩ := List.mem_map.mp hr
      obtain ⟨rfl, rfl⟩ := Prod.mk.inj heq
      exact .inr ⟨rfl, Option.mem_toList.mp hr'⟩
  refine ⟨hcluster ▸ ht.reachable, fun c' => ?_, fun c' r hr k hk => ?_,
    fun c' t kv_pair hr p hp => ?_, fun i => ?_, fun g hg => ?_, fun c' r hr hsucceed k hk => ?_⟩
  · have hold := ht.outstanding c'
    rw [hrequests, hresponses, hissued]
    by_cases hcc : c' = c
    · subst hcc
      rw [if_pos hc] at hold
      cases request <;> simp_all
    · rw [Function.update_of_ne hcc, ← hold]
      cases request <;> simp [Ne.symm hcc]
  · rw [hissued] at hk
    rcases hmem c' r hr with ⟨hr, hcc⟩ | ⟨rfl, hr⟩
    · rw [Function.update_of_ne hcc] at hk
      exact ht.asks c' r hr k hk
    · rw [Function.update_self] at hk
      exact hget k r hk hr
  · rw [hhistory]
    rcases hmem c' _ hr with ⟨hr, -⟩ | ⟨-, hr⟩
    · exact (ht.requests c' t kv_pair hr p hp).append l
    · exact hput t kv_pair hr p hp
  · rw [hcluster, hhistory]
    exact (ht.stored i).sent_append l
  · rw [hcluster] at hg
    rw [hhistory]
    exact (ht.gossiped g hg).sent_append l
  · rw [hresponses] at hr
    have hcc : c' ≠ c := by
      rintro rfl
      exact hnoResponse r hr
    rw [hissued, Function.update_of_ne hcc] at hk
    rw [hhistory]
    exact (ht.responses c' r hr hsucceed k hk).append l

/-- **A command.** -/
theorem SessionInv.command (hs : SessionInv kind s) {c : ι} (hc : s.issued c = none)
    (command : ClientCommand) : SessionInv kind (s.command c command) := by
  have hview := hs.views c
  have hawaits := hs.awaits c
  rw [hc] at hview hawaits
  have hcommanded := commanded (s.clients c) command
  obtain ⟨hstep, hput, hget⟩ := hview.commanded hcommanded
  have hhistory : (s.command c command).history = s.history ++
      commandEvents c (s.clients c).view command ((s.clients c).command command).1
        ((s.clients c).command command).2.view := by
    simp only [Sessions.command, commandEvents, List.append_assoc]
    cases command <;> rfl
  refine hs.move hhistory rfl rfl (fun e he => client_of_mem_commandEvents he)
    ((command_kind _ _).trans (hs.kinds c)) (command_awaits hawaits command) hstep ?_
  exact hs.traffic.command hc rfl rfl hhistory rfl rfl hput hget

/-- A thread that processes a request stores, gossips and answers what has been sent. -/
theorem SessionInv.serve (hs : SessionInv kind s) {n : ℕ} {i : ThreadId}
    (h : s.serve n i = some s') : SessionInv kind s' := by
  simp only [Sessions.serve] at h
  split at h
  · cases h
  rename_i c request hn
  obtain ⟨⟨response, cluster'⟩, hcluster, rfl⟩ := Option.map_eq_some_iff.mp h
  obtain ⟨state, published, hproc, rfl⟩ := Cluster.request_eq_some hcluster
  have ht := hs.traffic
  have hmem : (c, request) ∈ s.requests := List.mem_of_getElem? hn
  have hset := settled_of_reachable ht.reachable i
  have hstored : EntriesIn (SentEntry s.history) state.kvs := by
    rw [(processRequest_ok hset hproc).2.1]
    refine (ht.stored i).putAll fun e he => ?_
    cases request with
    | put t kv_pair =>
        obtain ⟨p, hp, rfl⟩ := List.mem_map.mp he
        exact ht.requests c t kv_pair hmem p hp
    | beginTransaction => cases he
    | get key => cases he
    | notSet => cases he
  refine ⟨hs.kinds, hs.awaits, hs.views, ⟨ht.reachable.step (cluster_step_request hproc),
    fun c' => ?_, fun c' r hr => ht.asks c' r (List.mem_of_mem_eraseIdx hr),
    fun c' t kv_pair hr => ht.requests c' t kv_pair (List.mem_of_mem_eraseIdx hr), ?_,
    fun g hg => ?_, fun c' r hr hsucceed k hk => ?_⟩, hs.isolated⟩
  · have hperm : ((s.requests.eraseIdx n).map Prod.fst ++
        (s.responses ++ [(c, response)]).map Prod.fst).Perm
        (s.requests.map Prod.fst ++ s.responses.map Prod.fst) := by
      have hfst := (cons_eraseIdx_perm hn).map Prod.fst
      rw [List.map_append, List.map_singleton]
      refine (List.perm_append_comm.append_left _).trans ?_
      rw [List.singleton_append]
      exact List.perm_middle.trans (hfst.append_right _)
    rw [hperm.count_eq]
    exact ht.outstanding c'
  · exact (Function.forall_update_iff s.cluster.threads fun _ st =>
      EntriesIn (SentEntry s.history) (State.kvs st)).mpr ⟨hstored, fun j _ => ht.stored j⟩
  · rcases List.mem_append.mp hg with hg | hg
    · exact ht.gossiped g hg
    · cases published with
      | none => cases hg
      | some db =>
          obtain ⟨j, -, rfl⟩ := List.mem_map.mp hg
          exact EntriesIn.published hstored hproc
  · rcases List.mem_append.mp hr with hr | hr
    · exact ht.responses c' r hr hsucceed k hk
    · obtain ⟨rfl, rfl⟩ := Prod.mk.inj (List.mem_singleton.mp hr)
      obtain rfl := ht.asks c' request hmem k hk
      have hok : r.succeed = some true := by
        cases hr' : r.succeed <;> simp_all
      obtain ⟨e, he, hvalue⟩ := processRequest_get hproc hok
      rw [hvalue]
      exact ht.stored i k e he

/-- Gossip. -/
theorem SessionInv.gossip (hs : SessionInv kind s) {n : ℕ} {cluster' : Cluster}
    (h : cluster.step s.cluster (.deliver n) = some cluster') :
    SessionInv kind { s with cluster := cluster' } := by
  have ht := hs.traffic
  have hreach := ht.reachable.step h
  obtain ⟨g, hg, rfl⟩ := Option.map_eq_some_iff.mp h
  have hjoin := (ht.stored g.dst).join (ht.gossiped g (List.mem_of_getElem? hg))
  refine ⟨hs.kinds, hs.awaits, hs.views, ⟨hreach, ht.outstanding, ht.asks, ht.requests, ?_,
    fun g' hg' => ht.gossiped g' (List.mem_of_mem_eraseIdx hg'), ht.responses⟩, hs.isolated⟩
  exact (Function.forall_update_iff s.cluster.threads fun _ st =>
    EntriesIn (SentEntry s.history) (State.kvs st)).mpr ⟨hjoin, fun j _ => ht.stored j⟩

/-- **A response.** -/
theorem SessionInv.respond (hs : SessionInv kind s) {n : ℕ} (h : s.respond n = some s') :
    SessionInv kind s' := by
  simp only [Sessions.respond] at h
  split at h
  · cases h
  rename_i c response hn
  obtain ⟨command, hissued, rfl⟩ := Option.map_eq_some_iff.mp h
  have ht := hs.traffic
  have hmem : (c, response) ∈ s.responses := List.mem_of_getElem? hn
  have hview := hs.views c
  have hawaits := hs.awaits c
  rw [hissued] at hview hawaits
  obtain ⟨hreceived, hidle⟩ := received hawaits response
  rw [hs.kinds] at hreceived
  have hstep := hview.received hreceived fun hsucceed k hk =>
    ht.responses c response hmem hsucceed k (hk ▸ hissued)
  set l := responseEvents c (s.clients c).view ((s.clients c).receive response).view command
    with hl
  have hevents : Sessions.readEvents c (s.clients c) ((s.clients c).receive response) command =
      l := by
    cases command <;> rfl
  -- What is left under way of client `c` is nothing.
  have hperm : (c :: (s.requests.map Prod.fst ++ (s.responses.eraseIdx n).map Prod.fst)).Perm
      (s.requests.map Prod.fst ++ s.responses.map Prod.fst) :=
    List.perm_middle.symm.trans (((cons_eraseIdx_perm hn).map Prod.fst).append_left _)
  have hcount : ∀ c', (s.requests.map Prod.fst ++ (s.responses.eraseIdx n).map Prod.fst).count c' =
      if Function.update s.issued c none c' = none then 0 else 1 := by
    intro c'
    have hold := ht.outstanding c'
    rw [← hperm.count_eq, List.count_cons] at hold
    by_cases hc : c' = c
    · subst hc
      simp_all
    · simpa [Function.update_of_ne hc, Ne.symm hc] using hold
  have hother : ∀ c' k, Function.update s.issued c none c' = some (.get k) →
      s.issued c' = some (.get k) := by
    intro c' k hk
    by_cases hc : c' = c
    · rw [hc, Function.update_self] at hk
      cases hk
    · rwa [Function.update_of_ne hc] at hk
  refine hs.move (by rw [hevents]) rfl rfl (fun e he => client_of_mem_responseEvents he)
    ((receive_kind _ _).trans (hs.kinds c)) hidle hstep ?_
  refine ⟨ht.reachable, hcount, fun c' r hr k hk => ht.asks c' r hr k (hother c' k hk),
    fun c' t kv_pair hr p hp => (ht.requests c' t kv_pair hr p hp).append _,
    fun i => (ht.stored i).sent_append _, fun g hg => (ht.gossiped g hg).sent_append _,
    fun c' r hr hsucceed k hk => ?_⟩
  exact (ht.responses c' r (List.mem_of_mem_eraseIdx hr) hsucceed k (hother c' k hk)).append _

/-- **The invariant holds in every run.** -/
theorem sessionInv_of_reachable (h : (sessions kind).Reachable s) : SessionInv kind s := by
  refine h.invariant ?_ fun s a s' _ hs hstep => ?_
  · refine ⟨fun c => ?_, fun c => ?_, fun c => ?_, ⟨Machine.Reachable.init, ?_, ?_, ?_,
      fun i => EntriesIn.empty, ?_, ?_⟩, EachAfter.nil⟩
    · cases hk : kind c <;> simp [sessions, AnyClient.init, AnyClient.kind, hk]
    · cases hk : kind c <;> simp [sessions, AnyClient.init, AnyClient.Awaits, hk]
    · refine ⟨fun k => ?_, fun _ k _ => ?_, by simp [sessions], fun k v hv => ?_, ?_⟩
      all_goals
        cases hk : kind c <;>
          simp_all [sessions, AnyClient.init, AnyClient.view, AnyClient.values, ownPut, cutRead,
            readsOf]
    · simp [sessions]
    · simp [sessions]
    · simp [sessions]
    · simp [sessions, cluster]
    · simp [sessions]
  · cases a with
    | line c input =>
        simp only [sessions, Sessions.line] at hstep
        split at hstep
        · cases hstep
        · cases hstep
          exact hs
        · rename_i hc _
          cases hstep
          exact hs.command hc _
    | serve n i => exact hs.serve hstep
    | gossip n =>
        obtain ⟨cluster', hcluster, rfl⟩ := Option.map_eq_some_iff.mp hstep
        exact hs.gossip hcluster
    | respond n => exact hs.respond hstep

/-- **Isolation of sessions.** In every run of any number of clients of the three kinds, with
any routing of their requests and any delivery of gossip: what a client has printed as values
is what the history has for it; and whenever a `get(k)` prints `v`, then `v` is what the client
itself has put for `k` and not sent yet, if there is such a value (a `RucClient` has none, since
it sends each put at once); and otherwise some client has sent `v` before, as the last value it
had put for `k` and not sent before. In the latter case an `IciClient` prints the value that it
has printed for `k` before, if it has printed one since its last PUT. -/
theorem sessions_isolate (h : (sessions kind).Reachable s) :
    (∀ c, (s.clients c).values = readsOf c s.history) ∧
    ∀ past later c k v, s.history = past ++ .read c k v :: later →
      ownPut c k past = some v ∨
      ownPut c k past = none ∧ SentLast past k v ∧
        (kind c = .ici → ∀ v', cutRead c k past = some v' → v' = v) := by
  have hs := sessionInv_of_reachable h
  refine ⟨fun c => (hs.views c).values, fun past later c k v heq => ?_⟩
  exact hs.isolated past (.read c k v) later heq c k v rfl

end Sessions

/-- A client types a command. -/
def typeLine (c : ClientKind) (command : ClientCommand) : SessionAction ClientKind :=
  .line c ([space].intercalate (commandWords command))

/-- A client of each kind: the `RcClient` puts a value, reads it, and ends its transaction; the
`IciClient` reads it; the `RucClient` puts another one under a larger timestamp; and the
`IciClient` reads once more. -/
def threeKinds : List (SessionAction ClientKind) :=
  [typeLine .rc .begin, .serve 0 0, .respond 0,
    typeLine .rc (.put [107] [1]), typeLine .rc (.get [107]),
    typeLine .rc .end_, .serve 0 0, .respond 0,
    typeLine .ici (.get [107]), .serve 0 0, .respond 0,
    typeLine .ruc .begin, .serve 0 0, .respond 0,
    typeLine .ruc (.put [107] [2]), .serve 0 0, .respond 0,
    typeLine .ruc (.get [107]), .serve 0 0, .respond 0,
    typeLine .ici (.get [107])]

/-- In the run `threeKinds` the `RucClient` reads the new value, and the `IciClient` the old
one. -/
theorem sessions_isolate_three_kinds : ∃ s past,
    (sessions id).run (sessions id).init threeKinds = some s ∧
      s.history = past ++ [.read .ruc [107] [2], .read .ici [107] [1]] ∧
      (s.clients .ici).values = [[1], [1]] ∧ SentLast past [107] [2] := by
  have hrun : ((sessions id).run (sessions id).init threeKinds).map (fun s =>
      (s.history, (s.clients .ici).values)) =
      some ([.put .rc [107] [1], .read .rc [107] [1], .sent .rc, .read .ici [107] [1],
        .put .ruc [107] [2], .sent .ruc] ++ [.read .ruc [107] [2], .read .ici [107] [1]],
        [[1], [1]]) := by
    decide +kernel
  obtain ⟨s, hs, heq⟩ := Option.map_eq_some_iff.mp hrun
  obtain ⟨hhistory, hvalues⟩ := Prod.mk.inj heq
  refine ⟨s, _, hs, hhistory, hvalues, ?_⟩
  obtain hown | ⟨-, hsent, -⟩ := (sessions_isolate (Machine.reachable_of_run hs)).2 _ _ .ruc [107]
    [2] hhistory
  · exact absurd hown (by decide)
  · exact hsent

/-! ### What is stored -/

section Words

variable {ι : Type} [DecidableEq ι] {kind : ι → ClientKind} {s : Sessions ι}

/-- What a client has put it has put. -/
theorem put_mem_of_ownPut {c : ι} {k v : Bytes} {h : List (SessionEvent ι)}
    (hv : ownPut c k h = some v) : .put c k v ∈ h := by
  induction h using List.reverseRecOn with
  | nil => simp [ownPut] at hv
  | append_singleton h e ih =>
      cases e with
      | put c' k' v' =>
          rw [ownPut_put] at hv
          split_ifs at hv with heq
          · obtain ⟨rfl, rfl⟩ := heq
            obtain rfl := Option.some.inj hv
            simp
          · exact List.mem_append_left _ (ih hv)
      | sent c' =>
          rw [ownPut_sent] at hv
          split_ifs at hv
          exact List.mem_append_left _ (ih hv)
      | read c' k' v' =>
          rw [ownPut_read] at hv
          exact List.mem_append_left _ (ih hv)

/-- The arguments of a command that has been typed have no space in them. -/
theorem space_notMem_of_replCommand {input : Bytes} {k v : Bytes}
    (h : replCommand input = some (.put k v)) : space ∉ k ∧ space ∉ v := by
  have hwords : split input space = [putWord, k, v] := replCommand_eq_some_iff.mp h
  have hparts : ∀ p ∈ split input space, space ∉ p := notMem_of_mem_split input
  rw [hwords] at hparts
  exact ⟨hparts k (by simp), hparts v (by simp)⟩

/-- The events of a command that are puts. -/
theorem put_mem_command {c c' : ι} {command : ClientCommand} {k v : Bytes}
    (h : .put c' k v ∈ (s.command c command).history) :
    .put c' k v ∈ s.history ∨ command = .put k v := by
  simp only [Sessions.command, List.mem_append] at h
  obtain ((h | h) | h) | h := h
  · exact .inl h
  · right
    cases command with
    | put k' v' =>
        simp only [Sessions.putEvents] at h
        split_ifs at h
        · cases h
        · obtain ⟨-, rfl, rfl⟩ := SessionEvent.put.inj (List.mem_singleton.mp h)
          rfl
    | begin => cases h
    | get k' => cases h
    | end_ => cases h
  · simp only [Sessions.sentEvents] at h
    split at h
    · cases List.mem_singleton.mp h
    · cases h
  · cases command with
    | get k' =>
        obtain ⟨v', -, heq⟩ := List.mem_map.mp h
        cases heq
    | begin => cases h
    | put k' v' => cases h
    | end_ => cases h

/-- Everything that has been put consists of words. -/
theorem put_words (h : (sessions kind).Reachable s) :
    ∀ c k v, .put c k v ∈ s.history → space ∉ k ∧ space ∉ v := by
  refine h.invariant (I := fun s => ∀ c k v, .put c k v ∈ s.history → space ∉ k ∧ space ∉ v)
    (by simp [sessions]) fun s a s' _ hs hstep => ?_
  cases a with
  | line c input =>
      simp only [sessions, Sessions.line] at hstep
      split at hstep
      · cases hstep
      · cases hstep
        exact hs
      · rename_i hcommand
        cases hstep
        intro c' k v hmem
        rcases put_mem_command hmem with hmem | rfl
        · exact hs c' k v hmem
        · exact space_notMem_of_replCommand hcommand
  | serve n i =>
      simp only [sessions, Sessions.serve] at hstep
      split at hstep
      · cases hstep
      · obtain ⟨r, -, rfl⟩ := Option.map_eq_some_iff.mp hstep
        exact hs
  | gossip n =>
      obtain ⟨cluster', -, rfl⟩ := Option.map_eq_some_iff.mp hstep
      exact hs
  | respond n =>
      simp only [sessions, Sessions.respond] at hstep
      split at hstep
      · cases hstep
      · obtain ⟨command, -, rfl⟩ := Option.map_eq_some_iff.mp hstep
        intro c' k v hmem
        refine hs c' k v ((List.mem_append.mp hmem).resolve_right fun hread => ?_)
        cases command with
        | get k' =>
            obtain ⟨v', -, heq⟩ := List.mem_map.mp hread
            cases heq
        | begin => cases hread
        | put k' v' => cases hread
        | end_ => cases hread

/-- **What the threads store** has been typed: in every run, whatever a thread stores for a key
is the value of a put that some client has typed and sent, as the last one it had for this key
and not sent before, and neither has a space in it. -/
theorem sessions_store_words (h : (sessions kind).Reachable s) {i : ThreadId} {k : Bytes}
    {e : TimestampedStringLattice} (he : (s.cluster.threads i).kvs.get? k = some e) :
    (∃ c, .put c k e.value.get ∈ s.history) ∧ SentLast s.history k e.value.get ∧
      space ∉ k ∧ space ∉ e.value.get := by
  have hsent := (sessionInv_of_reachable h).traffic.stored i k e he
  obtain ⟨past, _, later, heq, c, rfl, hown⟩ := id hsent
  have hput : .put c k e.value.get ∈ s.history := by
    rw [heq]
    exact List.mem_append_left _ (put_mem_of_ownPut hown)
  exact ⟨⟨c, hput⟩, hsent, put_words h c k e.value.get hput⟩

end Words

/-- In the run `threeKinds` thread `0` stores what the `RucClient` has typed. -/
theorem sessions_store_words_three_kinds : ∃ s e,
    (sessions id).run (sessions id).init threeKinds = some s ∧
      (s.cluster.threads 0).kvs.get? [107] = some e ∧ e.value.get = [2] ∧
      SentLast s.history [107] [2] ∧ space ∉ e.value.get := by
  have hrun : ((sessions id).run (sessions id).init threeKinds).map (fun s =>
      ((s.cluster.threads 0).kvs.get? [107]).map fun e => e.value.get) = some (some [2]) := by
    decide +kernel
  obtain ⟨s, hs, hget⟩ := Option.map_eq_some_iff.mp hrun
  obtain ⟨e, he, hvalue⟩ := Option.map_eq_some_iff.mp hget
  obtain ⟨-, hsent, -, hspace⟩ := sessions_store_words (Machine.reachable_of_run hs) he
  exact ⟨s, e, hs, he, hvalue, hvalue ▸ hsent, hspace⟩

end LatticeFlow
