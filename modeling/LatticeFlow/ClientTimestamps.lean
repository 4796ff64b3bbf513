import LatticeFlow.IciClient
import LatticeFlow.Lib.History

/-!
# The Timestamps of Transactions

`RcClient` and `IciClient` treat timestamps and puts alike: a begin that succeeds sets
`current_timestamp_`, a put is refused only while that field is `-1`, and `end()` sends the
buffered puts under it. `BufferingClient` collects what the two have in common, and the
results below hold of both.

`end()` clears the buffer and leaves `current_timestamp_` alone. A put after it is therefore
accepted without a new begin, and goes out under the timestamp of the transaction before.

## Main results

* `BufferingClient.timestamp_run`: `current_timestamp_` is the timestamp of the last begin
  that succeeded.
* `own_timestamp_iff`: each transaction has its own timestamp exactly in the scripts that
  begin each transaction before its first put.
-/

namespace LatticeFlow

/-! ### Scripts -/

/-- The timestamp that a begin gets, if the command is a begin and succeeds. -/
def begunTimestamp (x : ClientCommand × Response) : Option ℤ :=
  if x.1 = .begin ∧ x.2.succeed.getD false = true then some (narrow (x.2.timestamp.getD 0))
  else none

/-- The timestamp of the last begin that succeeded, `-1` if there was none. -/
def lastTimestamp (xs : Script) : ℤ :=
  ((xs.filterMap begunTimestamp).getLast?).getD (-1)

/-- A begin has succeeded since the last `end()`. -/
def BegunSinceEnd (xs : Script) : Prop :=
  ∃ p x q, xs = p ++ x :: q ∧ (begunTimestamp x).isSome ∧ ∀ y ∈ q, y.1 ≠ .end_

/-- The servers hand out no timestamp twice. -/
def DistinctTimestamps (xs : Script) : Prop :=
  (xs.filterMap begunTimestamp).Nodup

/-- Every put comes after a begin that has succeeded since the last `end()`, unless no
begin has given the client a timestamp at all. -/
def BeginsBeforePuts (xs : Script) : Prop :=
  EachAfter (fun past x => ∀ k v, x.1 = .put k v →
    BegunSinceEnd past ∨ lastTimestamp past = -1) xs

/-- One more command counts if it is a BEGIN with its response. -/
theorem lastTimestamp_append_singleton (xs : Script) (x : ClientCommand × Response) :
    lastTimestamp (xs ++ [x]) = (begunTimestamp x).getD (lastTimestamp xs) := by
  simp only [lastTimestamp, List.filterMap_append]
  cases hx : begunTimestamp x with
  | none => simp [hx]
  | some t => simp [hx]

/-- The last timestamp is one that was handed out, if there was any. -/
theorem lastTimestamp_mem {xs : Script} (h : xs.filterMap begunTimestamp ≠ []) :
    lastTimestamp xs ∈ xs.filterMap begunTimestamp := by
  rw [lastTimestamp, List.getLast?_eq_some_getLast h]
  exact List.getLast_mem h

/-- Only the last part counts if there is a BEGIN in it. -/
theorem lastTimestamp_append {xs ys : Script} (h : ys.filterMap begunTimestamp ≠ []) :
    lastTimestamp (xs ++ ys) = lastTimestamp ys := by
  rw [lastTimestamp, lastTimestamp, List.filterMap_append, List.getLast?_append_of_ne_nil _ h]

/-- Different timestamps are different on the wire. -/
theorem ofInt_ne_of_mem {l : Script} {t t' : ℤ} (ht : t ∈ l.filterMap begunTimestamp)
    (ht' : t' ∈ l.filterMap begunTimestamp) (hne : t ≠ t') : Int64.ofInt t ≠ Int64.ofInt t' := by
  have hnarrow : ∀ t ∈ l.filterMap begunTimestamp, (Int64.ofInt t).toInt = t := by
    intro t ht
    obtain ⟨x, -, hx⟩ := List.mem_filterMap.mp ht
    simp only [begunTimestamp] at hx
    split_ifs at hx
    obtain rfl := Option.some.inj hx
    exact toInt_ofInt_narrow _
  intro heq
  exact hne (by rw [← hnarrow t ht, heq, hnarrow t' ht'])

/-- What begins after the last `end()` begins after any. -/
theorem BegunSinceEnd.of_end {p q : Script} {r : Response}
    (h : BegunSinceEnd (p ++ (.end_, r) :: q)) : q.filterMap begunTimestamp ≠ [] := by
  obtain ⟨p', x, q', heq, hx, hq'⟩ := h
  obtain ⟨t, ht⟩ := Option.isSome_iff_exists.mp hx
  have hend : x ≠ (.end_, r) := by
    rintro rfl
    simp [begunTimestamp] at ht
  rcases List.append_eq_append_iff.mp heq with ⟨a, rfl, ha⟩ | ⟨a, rfl, ha⟩
  · cases a with
    | nil => exact absurd (List.cons.inj ha).1.symm hend
    | cons y a =>
        obtain ⟨-, rfl⟩ := List.cons.inj ha
        simp [ht]
  · cases a with
    | nil => exact absurd (List.cons.inj ha).1 hend
    | cons y a =>
        obtain ⟨-, rfl⟩ := List.cons.inj ha
        exact absurd rfl (hq' (.end_, r) (by simp))

/-! ### Clients that buffer their puts -/

/-- What `RcClient` and `IciClient` have in common. -/
structure BufferingClient (σ : Type) extends Client σ where
  current_timestamp_ : σ → ℤ
  write_buffer_ : σ → UnorderedMap Bytes Bytes
  printed : σ → List Printed
  timestamp_init : current_timestamp_ init = -1
  buffer_init : write_buffer_ init = ∅
  exec_begin : ∀ s r,
    current_timestamp_ (toClient.exec s (.begin, r)) =
      (begunTimestamp (.begin, r)).getD (current_timestamp_ s) ∧
    write_buffer_ (toClient.exec s (.begin, r)) = write_buffer_ s
  exec_get : ∀ s k r,
    current_timestamp_ (toClient.exec s (.get k, r)) = current_timestamp_ s ∧
    write_buffer_ (toClient.exec s (.get k, r)) = write_buffer_ s
  exec_put_refused : ∀ s k v r, current_timestamp_ s = -1 →
    current_timestamp_ (toClient.exec s (.put k v, r)) = current_timestamp_ s ∧
    write_buffer_ (toClient.exec s (.put k v, r)) = write_buffer_ s ∧
    printed (toClient.exec s (.put k v, r)) = printed s ++ [.firstRunBegin]
  exec_put_accepted : ∀ s k v r, current_timestamp_ s ≠ -1 →
    current_timestamp_ (toClient.exec s (.put k v, r)) = current_timestamp_ s ∧
    write_buffer_ (toClient.exec s (.put k v, r)) = (write_buffer_ s).insert k v ∧
    printed (toClient.exec s (.put k v, r)) = printed s
  exec_end : ∀ s r,
    current_timestamp_ (toClient.exec s (.end_, r)) = current_timestamp_ s ∧
    write_buffer_ (toClient.exec s (.end_, r)) = ∅
  command_end : ∀ s, (command s .end_).1 =
    some (.put (Int64.ofInt (current_timestamp_ s))
      ((write_buffer_ s).entries.map fun kv => ⟨kv.1, kv.2⟩))

/-- `RcClient` buffers its puts. -/
def bufferingRcClient : BufferingClient RcClient where
  init := {}
  command := RcClient.command
  receive := RcClient.receive
  current_timestamp_ := RcClient.current_timestamp_
  write_buffer_ := RcClient.write_buffer_
  printed := RcClient.printed
  timestamp_init := rfl
  buffer_init := rfl
  exec_begin s r := by
    simp only [Client.exec, RcClient.command, RcClient.receive, begunTimestamp, true_and]
    split_ifs <;> exact ⟨rfl, rfl⟩
  exec_get s k r := by
    simp only [Client.exec, RcClient.command]
    split_ifs <;> exact ⟨rfl, rfl⟩
  exec_put_refused s k v r h := by
    simp [Client.exec, RcClient.command, h]
  exec_put_accepted s k v r h := by
    simp [Client.exec, RcClient.command, h]
  exec_end s r := ⟨rfl, rfl⟩
  command_end s := rfl

/-- `IciClient` buffers its puts. -/
def bufferingIciClient : BufferingClient IciClient where
  toClient := iciClient
  current_timestamp_ := IciClient.current_timestamp_
  write_buffer_ := IciClient.write_buffer_
  printed := IciClient.printed
  timestamp_init := rfl
  buffer_init := rfl
  exec_begin s r := by
    simp only [Client.exec, iciClient, IciClient.command, IciClient.receive, begunTimestamp,
      true_and]
    split_ifs <;> exact ⟨rfl, rfl⟩
  exec_get s k r := by
    simp only [Client.exec, iciClient, IciClient.command]
    split_ifs
    · exact ⟨rfl, rfl⟩
    · exact ⟨rfl, rfl⟩
    · simp only [IciClient.receive]
      split_ifs <;> exact ⟨rfl, rfl⟩
  exec_put_refused s k v r h := by
    simp [Client.exec, iciClient, IciClient.command, h]
  exec_put_accepted s k v r h := by
    simp [Client.exec, iciClient, IciClient.command, h]
  exec_end s r := ⟨rfl, rfl⟩
  command_end s := rfl

/-! ### One timestamp for each transaction -/

namespace BufferingClient

variable {σ : Type} (client : BufferingClient σ)

/-- The put of `v` for `k` after `past` is answered with `First run BEGIN TRANSACTION.` and
not buffered. -/
def Refuses (past : Script) (k v : Bytes) (response : Response) : Prop :=
  client.printed (client.exec (client.run past) (.put k v, response)) =
      client.printed (client.run past) ++ [.firstRunBegin] ∧
    client.write_buffer_ (client.exec (client.run past) (.put k v, response)) =
      client.write_buffer_ (client.run past)

/-- An `end()` after `past` sends the pairs `kv_pair`, of which there are some, under the
timestamp `t`. -/
def Sends (past : Script) (t : Int64) (kv_pair : List KeyValuePair) : Prop :=
  (client.command (client.run past) .end_).1 = some (.put t kv_pair) ∧ kv_pair ≠ []

/-- A put is buffered only if a begin has succeeded since the last `end()`. -/
def PutsNeedBegin (xs : Script) : Prop :=
  EachAfter (fun past x => ∀ k v, x.1 = .put k v → ¬ BegunSinceEnd past →
    client.Refuses past k v x.2) xs

/-- No two batches that are not empty carry the same timestamp. -/
def OwnTimestamps (xs : Script) : Prop :=
  ∀ p r q r' u t kv_pair t' kv_pair',
    xs = p ++ (.end_, r) :: q ++ (.end_, r') :: u → client.Sends p t kv_pair →
    client.Sends (p ++ (.end_, r) :: q) t' kv_pair' → t ≠ t'

/-- **`current_timestamp_`** is the timestamp of the last begin that succeeded. -/
theorem timestamp_run (xs : Script) :
    client.current_timestamp_ (client.run xs) = lastTimestamp xs := by
  induction xs using List.reverseRecOn with
  | nil => exact client.timestamp_init
  | append_singleton xs x ih =>
      obtain ⟨command, r⟩ := x
      rw [Client.run_append_singleton, lastTimestamp_append_singleton, ← ih]
      cases command with
      | begin => exact (client.exec_begin _ r).1
      | get k => exact (client.exec_get _ k r).1
      | put k v =>
          by_cases h : client.current_timestamp_ (client.run xs) = -1
          · exact (client.exec_put_refused _ k v r h).1
          · exact (client.exec_put_accepted _ k v r h).1
      | end_ => exact (client.exec_end _ r).1

/-- A put is refused exactly when no begin has given the client a timestamp. -/
theorem refuses_iff {past : Script} {k v : Bytes} {response : Response} :
    client.Refuses past k v response ↔ lastTimestamp past = -1 := by
  rw [← client.timestamp_run]
  constructor
  · rintro ⟨hprinted, -⟩
    by_contra h
    rw [(client.exec_put_accepted _ k v response h).2.2] at hprinted
    simp at hprinted
  · intro h
    obtain ⟨-, hbuffer, hprinted⟩ := client.exec_put_refused _ k v response h
    exact ⟨hprinted, hbuffer⟩

/-- What is buffered was put since the last `end()`, under a timestamp. -/
theorem exists_put_of_buffered {xs : Script}
    (h : client.write_buffer_ (client.run xs) ≠ ∅) :
    ∃ p k v r q, xs = p ++ (.put k v, r) :: q ∧ lastTimestamp p ≠ -1 ∧
      ∀ y ∈ q, y.1 ≠ .end_ := by
  induction xs using List.reverseRecOn with
  | nil => exact absurd client.buffer_init h
  | append_singleton xs x ih =>
      obtain ⟨command, r⟩ := x
      rw [Client.run_append_singleton] at h
      -- Unless the last command is the put, the buffer was not empty before it.
      have hbefore : client.write_buffer_ (client.run xs) ≠ ∅ → command ≠ .end_ →
          ∃ p k v r' q, xs ++ [(command, r)] = p ++ (.put k v, r') :: q ∧
            lastTimestamp p ≠ -1 ∧ ∀ y ∈ q, y.1 ≠ .end_ := by
        intro hxs hend
        obtain ⟨p, k, v, r', q, rfl, hp, hq⟩ := ih hxs
        refine ⟨p, k, v, r', q ++ [(command, r)], by simp, hp, fun y hy => ?_⟩
        rcases List.mem_append.mp hy with hy | hy
        · exact hq y hy
        · rw [List.mem_singleton.mp hy]
          exact hend
      cases command with
      | begin =>
          rw [(client.exec_begin _ r).2] at h
          exact hbefore h (by simp)
      | get k =>
          rw [(client.exec_get _ k r).2] at h
          exact hbefore h (by simp)
      | put k v =>
          by_cases hts : client.current_timestamp_ (client.run xs) = -1
          · rw [(client.exec_put_refused _ k v r hts).2.1] at h
            exact hbefore h (by simp)
          · rw [client.timestamp_run] at hts
            exact ⟨xs, k, v, r, [], rfl, hts, by simp⟩
      | end_ => exact absurd (client.exec_end _ r).2 h

/-- A script that begins before its puts has begun when something is buffered. -/
theorem begunSinceEnd_of_buffered {xs u : Script} (hxs : BeginsBeforePuts (xs ++ u))
    (h : client.write_buffer_ (client.run xs) ≠ ∅) : BegunSinceEnd xs := by
  obtain ⟨p, k, v, r, q, rfl, hp, hq⟩ := client.exists_put_of_buffered h
  have hbegun := hxs p (.put k v, r) (q ++ u) (by simp) k v rfl
  obtain ⟨p', x, q', rfl, hx, hq'⟩ := hbegun.resolve_right hp
  refine ⟨p', x, q' ++ (.put k v, r) :: q, by simp, hx, fun y hy => ?_⟩
  rcases List.mem_append.mp hy with hy | hy
  · exact hq' y hy
  · rcases List.mem_cons.mp hy with rfl | hy
    · simp
    · exact hq y hy

/-- A batch that is not empty carries the timestamp of a begin. -/
theorem buffered_of_sends {past : Script} {t : Int64} {kv_pair : List KeyValuePair}
    (h : client.Sends past t kv_pair) :
    client.write_buffer_ (client.run past) ≠ ∅ ∧ t = Int64.ofInt (lastTimestamp past) := by
  obtain ⟨hsent, hne⟩ := h
  rw [client.command_end, client.timestamp_run, Option.some.injEq, Request.put.injEq] at hsent
  refine ⟨fun hempty => hne ?_, hsent.1.symm⟩
  rw [← hsent.2, hempty]
  rfl

/-- The timestamps of two batches come from different begins. -/
theorem ownTimestamps_of_begins {xs : Script} (hxs : BeginsBeforePuts xs)
    (hdistinct : DistinctTimestamps xs) : client.OwnTimestamps xs := by
  intro p r q r' u t kv_pair t' kv_pair' heq hsends hsends'
  obtain ⟨hbuf, rfl⟩ := client.buffered_of_sends hsends
  obtain ⟨hbuf', rfl⟩ := client.buffered_of_sends hsends'
  have hsplit : xs = p ++ ((.end_, r) :: q ++ (.end_, r') :: u) := by rw [heq]; simp
  have hp : p.filterMap begunTimestamp ≠ [] := by
    obtain ⟨p', x, q', rfl, hx, -⟩ := client.begunSinceEnd_of_buffered (hsplit ▸ hxs) hbuf
    obtain ⟨t, ht⟩ := Option.isSome_iff_exists.mp hx
    simp [ht]
  have hq : ((.end_, r) :: q : Script).filterMap begunTimestamp ≠ [] :=
    (client.begunSinceEnd_of_buffered (heq ▸ hxs) hbuf').of_end
  have hmem := lastTimestamp_mem hp
  have hmem' := lastTimestamp_mem hq
  rw [lastTimestamp_append hq]
  have htimestamps : xs.filterMap begunTimestamp = p.filterMap begunTimestamp ++
      (((.end_, r) :: q : Script).filterMap begunTimestamp ++
        ((.end_, r') :: u : Script).filterMap begunTimestamp) := by
    rw [hsplit, List.filterMap_append, List.filterMap_append]
  rw [DistinctTimestamps, htimestamps] at hdistinct
  have hdisjoint := (List.nodup_append.mp hdistinct).2.2
  refine ofInt_ne_of_mem (l := xs) ?_ ?_ (hdisjoint _ hmem _ (List.mem_append_left _ hmem'))
  · rw [htimestamps]
    exact List.mem_append_left _ hmem
  · rw [htimestamps]
    exact List.mem_append_right _ (List.mem_append_left _ hmem')

/-- Puts need a begin exactly in the scripts that begin before their puts. -/
theorem putsNeedBegin_iff {xs : Script} : client.PutsNeedBegin xs ↔ BeginsBeforePuts xs := by
  constructor
  · intro h p x q heq k v hx
    by_cases hbegun : BegunSinceEnd p
    · exact Or.inl hbegun
    · exact Or.inr (client.refuses_iff.mp (h p x q heq k v hx hbegun))
  · intro h p x q heq k v hx hbegun
    exact client.refuses_iff.mpr ((h p x q heq k v hx).resolve_left hbegun)

/-- Each transaction has its own timestamp exactly in the scripts that begin before their
puts. -/
theorem own_iff (xs : Script) :
    (client.PutsNeedBegin xs ∧ (DistinctTimestamps xs → client.OwnTimestamps xs)) ↔
      BeginsBeforePuts xs :=
  ⟨fun h => client.putsNeedBegin_iff.mp h.1,
    fun h => ⟨client.putsNeedBegin_iff.mpr h, client.ownTimestamps_of_begins h⟩⟩

end BufferingClient

/-- **Each transaction has its own timestamp**, for both clients and every script: a put is
buffered only if a begin has succeeded since the last `end()`, and two batches that are not
empty never carry the same timestamp if no timestamp is handed out twice, exactly when every
put of the script comes after a begin that has succeeded since the last `end()`, or while
the client has no timestamp at all. -/
theorem own_timestamp_iff (xs : Script) :
    ((bufferingRcClient.PutsNeedBegin xs ∧
      (DistinctTimestamps xs → bufferingRcClient.OwnTimestamps xs)) ↔ BeginsBeforePuts xs) ∧
    ((bufferingIciClient.PutsNeedBegin xs ∧
      (DistinctTimestamps xs → bufferingIciClient.OwnTimestamps xs)) ↔ BeginsBeforePuts xs) :=
  ⟨bufferingRcClient.own_iff xs, bufferingIciClient.own_iff xs⟩

/-- One begin, and a put and an `end()` twice. -/
def beginOnce : Script :=
  [(.begin, { succeed := some true, timestamp := some 10 }), (.put [1] [5], {}),
   (.end_, { succeed := some true }), (.put [1] [6], {}), (.end_, { succeed := some true })]

/-- In the script `beginOnce` both clients buffer a put that no begin precedes since the
last `end()`, and send two batches under the timestamp that was handed out once. -/
theorem second_batch_reuses_timestamp :
    (¬ bufferingRcClient.PutsNeedBegin beginOnce ∧
      ¬ (DistinctTimestamps beginOnce → bufferingRcClient.OwnTimestamps beginOnce)) ∧
    ¬ bufferingIciClient.PutsNeedBegin beginOnce ∧
      ¬ (DistinctTimestamps beginOnce → bufferingIciClient.OwnTimestamps beginOnce) := by
  have hdistinct : DistinctTimestamps beginOnce := List.nodup_singleton _
  have hbegun : ¬ BegunSinceEnd (beginOnce.take 3) := by
    intro h
    exact BegunSinceEnd.of_end (p := beginOnce.take 2) (q := []) h rfl
  refine ⟨⟨fun h => ?_, fun h => ?_⟩, fun h => ?_, fun h => ?_⟩
  · have hrefuses := h (beginOnce.take 3) _ _ rfl [1] [6] rfl hbegun
    have hprinted := hrefuses.1
    revert hprinted
    decide
  · exact h hdistinct (beginOnce.take 2) _ [(.put [1] [6], {})] _ [] 10 [⟨[1], [5]⟩] 10
      [⟨[1], [6]⟩] rfl ⟨by decide, by decide⟩ ⟨by decide, by decide⟩ rfl
  · have hrefuses := h (beginOnce.take 3) _ _ rfl [1] [6] rfl hbegun
    have hprinted := hrefuses.1
    revert hprinted
    decide
  · exact h hdistinct (beginOnce.take 2) _ [(.put [1] [6], {})] _ [] 10 [⟨[1], [5]⟩] 10
      [⟨[1], [6]⟩] rfl ⟨by decide, by decide⟩ ⟨by decide, by decide⟩ rfl

end LatticeFlow
