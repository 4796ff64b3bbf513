import LatticeFlow.ServerHistory

/-!
# Wire Timestamps

The timestamp of a PUT is an `int64` in `key_value_stores/message.proto`, and so is the
timestamp in the response to a GET. The database of the server holds `MaxLattice<int>`
(`key_value_stores/server.cc`): a timestamp is narrowed to an `int` when it is stored, and
the PUTs of a key are ordered by what is left of their timestamps.

This module is about one thread that processes PUTs, with any timestamps and pairs.

## Main results

* `stamped_putAll`: a thread holds for each key the largest of the narrowed PUTs of it.
* `wire_order_iff`: when a GET answers with the largest PUT of the key.
-/

namespace LatticeFlow

/-- A PUT request: its timestamp and its pairs. -/
abbrev PutRequest := Int64 × List KeyValuePair

/-- PUT requests one after another, processed by one thread. -/
def processPuts : List PutRequest → State → Except Exn State
  | [], state => .ok state
  | (timestamp, kv_pair) :: puts, state =>
      match processRequest (.put timestamp kv_pair) state with
      | .error e => .error e
      | .ok (_, state, _) => processPuts puts state

/-- The PUTs of a key, with their wire timestamps, in order. -/
def putsOf (k : Bytes) (puts : List PutRequest) : List (Int64 × Bytes) :=
  puts.flatMap fun p =>
    p.2.filterMap fun kv_pair => if kv_pair.key = k then some (p.1, kv_pair.value) else none

/-- The largest timestamp, with the largest value among those with this timestamp. -/
structure LargestPut (puts : List (Int64 × Bytes)) (t : Int64) (v : Bytes) : Prop where
  mem : (t, v) ∈ puts
  timestamp : ∀ p ∈ puts, p.1.toInt ≤ t.toInt
  value : ∀ p ∈ puts, p.1 = t → p.2 ≤ v

/-- The response to a GET that finds this timestamp and this value. -/
def found (t : Int64) (v : Bytes) : Response :=
  { succeed := some true, value := some v, timestamp := some t }

/-- The largest timestamp is an `int`, and no timestamp below all `int`s becomes one that
makes its PUT larger. -/
structure SurvivesNarrowing (puts : List (Int64 × Bytes)) (t : Int64) (v : Bytes) : Prop where
  isInt : -2 ^ 31 ≤ t.toInt ∧ t.toInt < 2 ^ 31
  below : ∀ p ∈ puts, p.1.toInt < -2 ^ 31 → toLex (narrow p.1, p.2) ≤ toLex (t.toInt, v)

/-! ### What a thread holds -/

/-- An `int` is not changed. -/
theorem narrow_eq {t : Int64} (hlo : -2 ^ 31 ≤ t.toInt) (hhi : t.toInt < 2 ^ 31) :
    narrow t = t.toInt := by
  rw [narrow, Int64.toInt_toInt32]
  exact Int.bmod_eq_of_le (by omega) (by omega)

/-- What is narrowed is an `int`. -/
theorem narrow_isInt (t : Int64) : -2 ^ 31 ≤ narrow t ∧ narrow t < 2 ^ 31 := by
  have hlo := t.toInt32.minValue_le_toInt
  have hhi := t.toInt32.toInt_lt
  rw [Int32.toInt_minValue] at hlo
  exact ⟨hlo, hhi⟩

/-- An entry that is stored is found, or a larger one. -/
theorem stamped_put (db : Database) (k : Bytes) (x : TimestampedStringLattice) :
    ∃ e, (db.put k x).get? k = some e ∧ stamped x ≤ stamped e := by
  rw [MapLattice.lookup_put, if_pos rfl]
  cases db.get? k with
  | none => exact ⟨x, rfl, le_rfl⟩
  | some y =>
      refine ⟨_, rfl, ?_⟩
      rw [stamped_join]
      exact le_max_right _ _

/-- **The entries stored for a key** are not larger than the one that is found. -/
theorem stamped_putAll {db : Database} {entries : List (Bytes × TimestampedStringLattice)}
    {k : Bytes} {x : TimestampedStringLattice} (hx : (k, x) ∈ entries) :
    ∃ e, (putAll db entries).get? k = some e ∧ stamped x ≤ stamped e := by
  obtain ⟨before, after, rfl⟩ := List.append_of_mem hx
  obtain ⟨e, he, hle⟩ := stamped_put (putAll db before) k x
  obtain ⟨e', he', hle'⟩ := Grows.putAll ((putAll db before).put k x) after k e he
  refine ⟨e', ?_, hle.trans hle'⟩
  rw [← he', putAll, List.foldl_append]
  rfl

/-- The entries that the PUTs ask to store. -/
def storedBy (puts : List PutRequest) : List (Bytes × TimestampedStringLattice) :=
  puts.flatMap fun p => acceptedEntries (.put p.1 p.2)

/-- **PUTs are always processed**, and what they ask for is stored. -/
theorem processPuts_ok (puts : List PutRequest) {state : State} (hs : state.Settled) :
    ∃ state', processPuts puts state = .ok state' ∧ state'.Settled ∧
      state'.kvs = putAll state.kvs (storedBy puts) := by
  induction puts generalizing state with
  | nil => exact ⟨state, rfl, hs, rfl⟩
  | cons p puts ih =>
      obtain ⟨t, kv_pair⟩ := p
      have hdispatch : dispatch (.put t kv_pair) state = .ok _ := rfl
      obtain ⟨state₁, published, hput⟩ := processRequest_of_dispatch hs hdispatch
      obtain ⟨hs₁, hkvs₁, -⟩ := processRequest_ok hs hput
      obtain ⟨state', hputs, hs', hkvs'⟩ := ih hs₁
      refine ⟨state', by simp only [processPuts, hput, hputs], hs', ?_⟩
      rw [hkvs', hkvs₁]
      exact List.foldl_append.symm

/-- The stored entries of a key are its PUTs. -/
theorem mem_storedBy {k : Bytes} {x : TimestampedStringLattice} {puts : List PutRequest} :
    (k, x) ∈ storedBy puts ↔ ∃ p ∈ putsOf k puts, x = timestamped p.1 p.2 := by
  simp only [storedBy, putsOf, acceptedEntries, List.mem_flatMap, List.mem_map,
    List.mem_filterMap]
  constructor
  · rintro ⟨p, hp, kv_pair, hkv, heq⟩
    obtain ⟨rfl, rfl⟩ := Prod.mk.inj heq
    exact ⟨_, ⟨p, hp, kv_pair, hkv, if_pos rfl⟩, rfl⟩
  · rintro ⟨q, ⟨p, hp, kv_pair, hkv, heq⟩, rfl⟩
    split_ifs at heq with hk
    obtain rfl := Option.some.inj heq
    exact ⟨p, hp, kv_pair, hkv, by rw [hk]⟩

/-- **What is found for a key**: of its PUTs, the largest one after narrowing. -/
theorem get?_storedBy {k : Bytes} {puts : List PutRequest} {p : Int64 × Bytes}
    (hp : p ∈ putsOf k puts) :
    ∃ q ∈ putsOf k puts,
      (putAll MapLattice.empty (storedBy puts)).get? k = some (timestamped q.1 q.2) ∧
        ∀ p ∈ putsOf k puts, toLex (narrow p.1, p.2) ≤ toLex (narrow q.1, q.2) := by
  have hlarger : ∀ p ∈ putsOf k puts, ∃ e,
      (putAll MapLattice.empty (storedBy puts)).get? k = some e ∧
        stamped (timestamped p.1 p.2) ≤ stamped e :=
    fun p hp => stamped_putAll (mem_storedBy.mpr ⟨p, hp, rfl⟩)
  obtain ⟨e, he, -⟩ := hlarger p hp
  have hentries : EntriesIn (fun k e => (k, e) ∈ storedBy puts)
      (putAll MapLattice.empty (storedBy puts)) :=
    EntriesIn.empty.putAll fun _ h => h
  obtain ⟨q, hq, rfl⟩ := mem_storedBy.mp (hentries k e he)
  refine ⟨q, hq, he, fun p hp => ?_⟩
  obtain ⟨e', he', hle⟩ := hlarger p hp
  obtain rfl := Option.some.inj (he.symm.trans he')
  exact hle

/-! ### The wire order -/

/-- A GET that finds a PUT answers with it exactly if it survives narrowing. -/
theorem getResponse_timestamped {q : Int64 × Bytes} {t : Int64} {v : Bytes} :
    getResponse (some (timestamped q.1 q.2)) = found t v ↔
      toLex (narrow q.1, q.2) = toLex (t.toInt, v) := by
  simp only [getResponse, found, timestamped, Response.mk.injEq, true_and, Option.some.injEq,
    EmbeddingLike.apply_eq_iff_eq, Prod.mk.injEq]
  have ht : Int64.ofInt (narrow q.1) = t ↔ narrow q.1 = t.toInt := by
    rw [← Int64.toInt_inj, toInt_ofInt_narrow]
  exact and_comm.trans (and_congr_left' ht)

/-- **The order of the wire timestamps.** A thread that has processed any PUTs answers a GET
of a key with the largest timestamp of its PUTs and the largest value with it, if and only
if that timestamp is an `int` and no PUT with a timestamp below all `int`s becomes larger
when its timestamp is narrowed. -/
theorem wire_order_iff (i : ThreadId) (puts : List PutRequest) (k : Bytes) {t : Int64} {v : Bytes}
    (hlargest : LargestPut (putsOf k puts) t v) :
    ∃ state response, processPuts puts { thread_id := i } = .ok state ∧
      processRequest (.get k) state = .ok (response, state, none) ∧
      (response = found t v ↔ SurvivesNarrowing (putsOf k puts) t v) := by
  have hsettled : State.Settled { thread_id := i } := ⟨rfl, rfl⟩
  obtain ⟨state, hputs, hs, hkvs⟩ := processPuts_ok puts hsettled
  obtain ⟨q, hq, hget, hmax⟩ := get?_storedBy hlargest.mem
  refine ⟨state, _, hputs, processRequest_get_eq hs, ?_⟩
  rw [hkvs, hget, getResponse_timestamped]
  constructor
  · intro heq
    refine ⟨?_, fun p hp _ => heq ▸ hmax p hp⟩
    have hnarrow : narrow q.1 = t.toInt := congrArg (fun x => (ofLex x).1) heq
    exact hnarrow ▸ narrow_isInt q.1
  · rintro ⟨⟨hlo, hhi⟩, hbelow⟩
    refine le_antisymm ?_ ?_
    · by_cases hq' : q.1.toInt < -2 ^ 31
      · exact hbelow q hq hq'
      · have hle := hlargest.timestamp q hq
        rw [narrow_eq (not_lt.mp hq') (hle.trans_lt hhi), Prod.Lex.toLex_le_toLex]
        rcases hle.lt_or_eq with hlt | heq
        · exact Or.inl hlt
        · exact Or.inr ⟨heq, hlargest.value q hq (Int64.toInt_inj.mp heq)⟩
    · have hle := hmax _ hlargest.mem
      rwa [narrow_eq hlo hhi] at hle

/-- Two PUTs of one key whose timestamps are `int`s. -/
def intPuts : List PutRequest :=
  [(5, [⟨[7], [1]⟩, ⟨[8], [9]⟩]), (3, [⟨[7], [2]⟩])]

/-- After `intPuts` a GET answers with the PUT that has the larger timestamp. -/
theorem wire_order_iff_int_puts : ∃ state response,
    processPuts intPuts { thread_id := (0 : ThreadId) } = .ok state ∧
      processRequest (.get [7]) state = .ok (response, state, none) ∧ response = found 5 [1] := by
  have hlargest : LargestPut (putsOf [7] intPuts) 5 [1] :=
    ⟨by decide, by decide, by decide⟩
  obtain ⟨state, response, hputs, hget, hiff⟩ := wire_order_iff 0 intPuts [7] hlargest
  exact ⟨state, response, hputs, hget, hiff.mpr ⟨by decide, by decide⟩⟩

/-- Two PUTs of one key; the timestamp of the second one is `2 ^ 32`. -/
def wrappedPuts : List PutRequest :=
  [(1, [⟨[7], [1]⟩]), (4294967296, [⟨[7], [2]⟩])]

/-- After `wrappedPuts` a GET answers with the first PUT, although the timestamp of the
second one is larger: it is stored as `0`. -/
theorem wrapped_put_loses :
    LargestPut (putsOf [7] wrappedPuts) 4294967296 [2] ∧
      ∃ state, processPuts wrappedPuts {} = .ok state ∧
        processRequest (.get [7]) state = .ok (found 1 [1], state, none) ∧
        found 1 [1] ≠ found 4294967296 [2] :=
  ⟨⟨by decide, by decide, by decide⟩, _, rfl, rfl, by decide⟩

end LatticeFlow
