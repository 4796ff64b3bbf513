import LatticeFlow.RcClient

/-!
# Item Cut Isolation Clients

This module models `IciClient` of `key_value_stores/ici_client.cc`. Besides the buffer of
its puts the client keeps a buffer of the values it has read, and answers a repeated read
from there.

A client is run here against servers that answer as they like: a **script** pairs every
command with the response that its request gets, if the command sends one.

Only successful reads are buffered. Between two calls of `end()`, and before a put of `k`
is accepted, the reads of `k` therefore print `ERROR` until one of them succeeds, and the
value of that one from then on (`outcomes_eq`). They all have the same outcome unless the
first one fails and a later one succeeds.

## Main results

* `outcomes_eq`: what the reads of a key print.
* `item_cut_iff`: when they all print the same.
-/

namespace LatticeFlow

/-! ### The client -/

/-- The request whose response an `IciClient` waits for. -/
inductive IciWaiting
  | begin
  | get (k : Bytes)
  | end_
  deriving DecidableEq, Repr

/-- `IciClient`, with the response it waits for and what it has printed. -/
structure IciClient where
  current_timestamp_ : ℤ := -1
  write_buffer_ : UnorderedMap Bytes Bytes := ∅
  read_buffer_ : UnorderedMap Bytes Bytes := ∅
  waiting : Option IciWaiting := none
  printed : List Printed := []

namespace IciClient

/-- A command, up to the request that it sends if it sends one. -/
def command (client : IciClient) : ClientCommand → Option Request × IciClient
  | .begin => (some .beginTransaction, { client with waiting := some .begin })
  | .get k =>
      if client.write_buffer_.count k ≠ 0 then
        (none, { client with
          printed := client.printed ++ [.value ((client.write_buffer_.lookup k).getD [])] })
      else if client.read_buffer_.count k ≠ 0 then
        (none, { client with
          printed := client.printed ++ [.value ((client.read_buffer_.lookup k).getD [])] })
      else (some (.get k), { client with waiting := some (.get k) })
  | .put k v =>
      if client.current_timestamp_ = -1 then
        (none, { client with printed := client.printed ++ [.firstRunBegin] })
      else (none, { client with write_buffer_ := client.write_buffer_.insert k v })
  | .end_ =>
      (some (.put (Int64.ofInt client.current_timestamp_)
        (client.write_buffer_.entries.map fun kv => ⟨kv.1, kv.2⟩)),
        { client with waiting := some .end_ })

/-- The rest of a command, once its response is there. -/
def receive (client : IciClient) (response : Response) : IciClient :=
  let succeed := response.succeed.getD false
  match client.waiting with
  | none => client
  | some .begin =>
      if succeed then
        let t := narrow (response.timestamp.getD 0)
        { client with
          current_timestamp_ := t
          waiting := none
          printed := client.printed ++ [.timestamp t] }
      else { client with waiting := none, printed := client.printed ++ [.error] }
  | some (.get k) =>
      if succeed then
        { client with
          read_buffer_ := client.read_buffer_.insert k (response.value.getD [])
          waiting := none
          printed := client.printed ++ [.value (response.value.getD [])] }
      else { client with waiting := none, printed := client.printed ++ [.error] }
  | some .end_ =>
      { client with
        waiting := none
        write_buffer_ := ∅
        read_buffer_ := ∅
        printed := client.printed ++ if succeed then [] else [.error] }

end IciClient

/-! ### Scripts -/

/-- Commands, each with the response that its request gets if it sends one. -/
abbrev Script := List (ClientCommand × Response)

/-- A `Client`: its commands up to the requests they send, and the rest of a command once
its response is there. -/
structure Client (σ : Type) where
  init : σ
  command : σ → ClientCommand → Option Request × σ
  receive : σ → Response → σ

namespace Client

variable {σ : Type} (client : Client σ)

/-- Run one command to its end. -/
def exec (s : σ) (x : ClientCommand × Response) : σ :=
  match client.command s x.1 with
  | (none, s') => s'
  | (some _, s') => client.receive s' x.2

/-- Run a script. -/
def run (xs : Script) : σ :=
  xs.foldl client.exec client.init

/-- One more command after a run. -/
theorem run_append_singleton (xs : Script) (x : ClientCommand × Response) :
    client.run (xs ++ [x]) = client.exec (client.run xs) x := by
  simp [run, List.foldl_append]

end Client

/-- The client `IciClient`. -/
def iciClient : Client IciClient where
  init := {}
  command := IciClient.command
  receive := IciClient.receive

/-! ### Reads between two ends -/

/-- What a `get(k)` prints. -/
def IciClient.outcome (client : IciClient) (k : Bytes) (response : Response) : List Printed :=
  (iciClient.exec client (.get k, response)).printed.drop client.printed.length

/-- What the `get(k)` of a script print, one after another. -/
def IciClient.outcomes (k : Bytes) : IciClient → Script → List (List Printed)
  | _, [] => []
  | client, (command, response) :: xs =>
      (if command = .get k then [client.outcome k response] else []) ++
        outcomes k (iciClient.exec client (command, response)) xs

/-- No `put(k, .)` of the script is accepted. -/
def IciClient.Unwritten (k : Bytes) : IciClient → Script → Prop
  | _, [] => True
  | client, x :: xs =>
      (∀ v, x.1 = .put k v → client.current_timestamp_ = -1) ∧
        Unwritten k (iciClient.exec client x) xs

/-- The responses that go with the `get(k)` of a script. -/
def responses (k : Bytes) (xs : Script) : List Response :=
  xs.filterMap fun x => if x.1 = .get k then some x.2 else none

/-- The outcomes of reads of a key, given what is buffered for it: `ERROR` until a read
succeeds, and its value from then on. -/
def outcomesFrom : Option Bytes → List Response → List (List Printed)
  | some v, rs => rs.map fun _ => [.value v]
  | none, [] => []
  | none, r :: rs =>
      if r.succeed.getD false then
        [.value (r.value.getD [])] :: rs.map fun _ => [.value (r.value.getD [])]
      else [.error] :: outcomesFrom none rs

namespace IciClient

variable {client : IciClient} {k : Bytes} (response : Response)

/-- A `get(k)` that the read buffer answers. -/
theorem exec_get_cached (hw : client.write_buffer_.lookup k = none) {v : Bytes}
    (hr : client.read_buffer_.lookup k = some v) :
    iciClient.exec client (.get k, response) =
      { client with printed := client.printed ++ [.value v] } := by
  have hw' : client.write_buffer_.count k = 0 := UnorderedMap.count_eq_zero.mpr hw
  have hr' : client.read_buffer_.count k ≠ 0 := by
    rw [Ne, UnorderedMap.count_eq_zero, hr]
    simp
  simp [Client.exec, iciClient, command, hw', hr', hr]

/-- A `get(k)` that a server answers. -/
theorem exec_get_sent (hw : client.write_buffer_.lookup k = none)
    (hr : client.read_buffer_.lookup k = none) :
    iciClient.exec client (.get k, response) =
      if response.succeed.getD false then
        { client with
          read_buffer_ := client.read_buffer_.insert k (response.value.getD [])
          waiting := none
          printed := client.printed ++ [.value (response.value.getD [])] }
      else { client with waiting := none, printed := client.printed ++ [.error] } := by
  have hw' : client.write_buffer_.count k = 0 := UnorderedMap.count_eq_zero.mpr hw
  have hr' : client.read_buffer_.count k = 0 := UnorderedMap.count_eq_zero.mpr hr
  simp [Client.exec, iciClient, command, receive, hw', hr']

/-- Any other command that is not an `end()` or an accepted put of `k` leaves what is
buffered for `k` alone. -/
theorem exec_frame {command : ClientCommand} (hend : command ≠ .end_) (hget : command ≠ .get k)
    (hput : ∀ v, command = .put k v → client.current_timestamp_ = -1) :
    (iciClient.exec client (command, response)).write_buffer_.lookup k =
        client.write_buffer_.lookup k ∧
      (iciClient.exec client (command, response)).read_buffer_.lookup k =
        client.read_buffer_.lookup k := by
  cases command with
  | begin =>
      simp only [Client.exec, iciClient, IciClient.command, receive]
      split_ifs <;> exact ⟨rfl, rfl⟩
  | get k' =>
      have hk : k ≠ k' := by
        rintro rfl
        exact hget rfl
      simp only [Client.exec, iciClient, IciClient.command]
      split_ifs
      · exact ⟨rfl, rfl⟩
      · exact ⟨rfl, rfl⟩
      · simp only [receive]
        split_ifs
        · exact ⟨rfl, AList.lookup_insert_ne hk⟩
        · exact ⟨rfl, rfl⟩
  | put k' v =>
      simp only [Client.exec, iciClient, IciClient.command]
      split_ifs with hts
      · exact ⟨rfl, rfl⟩
      · have hk : k ≠ k' := by
          rintro rfl
          exact hts (hput v rfl)
        exact ⟨AList.lookup_insert_ne hk, rfl⟩
  | end_ => exact absurd rfl hend

/-- An `end()` empties both buffers. -/
theorem exec_end : (iciClient.exec client (.end_, response)).write_buffer_ = ∅ ∧
    (iciClient.exec client (.end_, response)).read_buffer_ = ∅ :=
  ⟨rfl, rfl⟩

/-- **What the reads of a key print**, as long as no put of it is accepted and no `end()`
comes. -/
theorem outcomes_eq {span : Script} (hw : client.write_buffer_.lookup k = none)
    (hend : ∀ x ∈ span, x.1 ≠ .end_) (hput : Unwritten k client span) :
    outcomes k client span =
      outcomesFrom (client.read_buffer_.lookup k) (responses k span) := by
  induction span generalizing client with
  | nil => cases hr : client.read_buffer_.lookup k <;> rfl
  | cons x xs ih =>
      obtain ⟨command, response⟩ := x
      have hend' : ∀ x ∈ xs, x.1 ≠ .end_ := fun x hx => hend x (List.mem_cons_of_mem _ hx)
      by_cases hget : command = .get k
      · subst hget
        have hrs : responses k ((.get k, response) :: xs) = response :: responses k xs := by
          simp [responses]
        rw [hrs, outcomes, if_pos rfl, outcome]
        cases hr : client.read_buffer_.lookup k with
        | some v =>
            have hexec := exec_get_cached response hw hr
            have hput' := hput.2
            rw [hexec] at hput' ⊢
            rw [ih (by exact hw) hend' hput', hr]
            simp [outcomesFrom]
        | none =>
            have hexec := exec_get_sent response hw hr
            have hput' := hput.2
            rw [hexec] at hput' ⊢
            by_cases hsucceed : response.succeed.getD false = true
            · rw [if_pos hsucceed] at hput' ⊢
              rw [ih (by exact hw) hend' hput', AList.lookup_insert]
              simp [outcomesFrom, hsucceed]
            · rw [if_neg hsucceed] at hput' ⊢
              rw [ih (by exact hw) hend' hput', hr, outcomesFrom, if_neg hsucceed]
              simp
      · have hrs : responses k ((command, response) :: xs) = responses k xs := by
          simp [responses, hget]
        obtain ⟨hw', hr'⟩ := exec_frame response
          (hend (command, response) List.mem_cons_self) hget hput.1
        rw [hrs, outcomes, if_neg hget, List.nil_append, ih (hw'.trans hw) hend' hput.2, hr']

end IciClient

/-- Reads that all fail print `ERROR`. -/
theorem eq_error_of_fail {rs : List Response} (h : ∀ r ∈ rs, r.succeed.getD false = false) :
    ∀ o ∈ outcomesFrom none rs, o = [.error] := by
  induction rs with
  | nil =>
      intro o ho
      cases ho
  | cons r rs ih =>
      intro o ho
      rw [outcomesFrom, h r List.mem_cons_self] at ho
      rcases List.mem_cons.mp ho with rfl | ho
      · rfl
      · exact ih (fun r hr => h r (List.mem_cons_of_mem _ hr)) o ho

/-- A read that succeeds prints a value. -/
theorem exists_value_of_succeed {rs : List Response} {r : Response} (hr : r ∈ rs)
    (h : r.succeed.getD false = true) : ∃ v, [.value v] ∈ outcomesFrom none rs := by
  induction rs with
  | nil => cases hr
  | cons r' rs ih =>
      rw [outcomesFrom]
      split_ifs with hr'
      · exact ⟨_, List.mem_cons_self⟩
      · rcases List.mem_cons.mp hr with rfl | hr
        · exact absurd h hr'
        · obtain ⟨v, hv⟩ := ih hr
          exact ⟨v, List.mem_cons_of_mem _ hv⟩

/-- The reads of a key that start with nothing buffered all have the same outcome unless
the first one fails and another one succeeds. -/
theorem outcomesFrom_eq_iff (rs : List Response) :
    (∀ o ∈ outcomesFrom none rs, ∀ o' ∈ outcomesFrom none rs, o = o') ↔
      (∀ r ∈ rs, r.succeed.getD false = false) ∨
        ∃ r, rs.head? = some r ∧ r.succeed.getD false = true := by
  constructor
  · intro hsame
    cases rs with
    | nil => exact Or.inl (by simp)
    | cons r rs =>
        by_cases hr : r.succeed.getD false = true
        · exact Or.inr ⟨r, rfl, hr⟩
        · left
          intro r' hr'
          by_contra hsucceed
          obtain ⟨v, hv⟩ := exists_value_of_succeed hr' (by simpa using hsucceed)
          have hmem : [Printed.error] ∈ outcomesFrom none (r :: rs) := by
            rw [outcomesFrom, if_neg hr]
            exact List.mem_cons_self
          have hcontra := hsame _ hv _ hmem
          cases hcontra
  · rintro (hnone | ⟨r, hhead, hr⟩) o ho o' ho'
    · rw [eq_error_of_fail hnone o ho, eq_error_of_fail hnone o' ho']
    · cases rs with
      | nil => cases hhead
      | cons r' rs =>
          obtain rfl : r' = r := Option.some.inj hhead
          rw [outcomesFrom, if_pos hr] at ho ho'
          have hall : ∀ o ∈ [Printed.value (r'.value.getD [])] ::
              rs.map (fun _ => [Printed.value (r'.value.getD [])]),
              o = [.value (r'.value.getD [])] := by
            simp
          rw [hall o ho, hall o' ho']

/-- **Item cut isolation.** In every script, between two calls of `end()`, as long as no
put of `k` is accepted: the reads of `k` all have the same outcome exactly if none of them
is answered with success or the first one is. -/
theorem item_cut_iff {past span : Script} {k : Bytes}
    (hpast : past = [] ∨ ∃ p r, past = p ++ [(.end_, r)])
    (hend : ∀ x ∈ span, x.1 ≠ .end_)
    (hput : IciClient.Unwritten k (iciClient.run past) span) :
    (∀ o ∈ IciClient.outcomes k (iciClient.run past) span,
      ∀ o' ∈ IciClient.outcomes k (iciClient.run past) span, o = o') ↔
    (∀ r ∈ responses k span, r.succeed.getD false = false) ∨
      ∃ r, (responses k span).head? = some r ∧ r.succeed.getD false = true := by
  have hempty : (iciClient.run past).write_buffer_ = ∅ ∧
      (iciClient.run past).read_buffer_ = ∅ := by
    rcases hpast with rfl | ⟨p, r, rfl⟩
    · exact ⟨rfl, rfl⟩
    · rw [Client.run_append_singleton]
      exact IciClient.exec_end r
  have hw : (iciClient.run past).write_buffer_.lookup k = none := by rw [hempty.1]; rfl
  have hr : (iciClient.run past).read_buffer_.lookup k = none := by rw [hempty.2]; rfl
  rw [IciClient.outcomes_eq hw hend hput, hr]
  exact outcomesFrom_eq_iff _

/-- A read that fails and is repeated with success. -/
def failThenFind : Script :=
  [(.get [1], { succeed := some false }), (.get [1], { succeed := some true, value := some [2] })]

/-- In the script `failThenFind` the condition fails, and the two outcomes differ. -/
theorem item_cut_iff_fail_then_find :
    ¬ ∀ o ∈ IciClient.outcomes [1] (iciClient.run []) failThenFind,
      ∀ o' ∈ IciClient.outcomes [1] (iciClient.run []) failThenFind, o = o' := by
  rw [item_cut_iff (Or.inl rfl) (by decide) (by simp [failThenFind, IciClient.Unwritten])]
  decide

/-- One read of a transaction prints `ERROR` and the next one a value. -/
theorem read_is_not_repeatable :
    ¬ ∀ (past span : Script) (k : Bytes), (past = [] ∨ ∃ p r, past = p ++ [(.end_, r)]) →
      (∀ x ∈ span, x.1 ≠ .end_) → IciClient.Unwritten k (iciClient.run past) span →
      ∀ o ∈ IciClient.outcomes k (iciClient.run past) span,
        ∀ o' ∈ IciClient.outcomes k (iciClient.run past) span, o = o' := by
  intro h
  have houtcomes : IciClient.outcomes [1] (iciClient.run []) failThenFind =
      [[.error], [.value [2]]] := by decide
  have hsame := h [] failThenFind [1] (Or.inl rfl) (by decide)
    (by simp [failThenFind, IciClient.Unwritten]) [.error] (by rw [houtcomes]; simp)
    [.value [2]] (by rw [houtcomes]; simp)
  cases hsame

end LatticeFlow
