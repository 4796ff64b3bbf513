import Mathlib.Data.List.TakeWhile
import LatticeFlow.Gossip
import LatticeFlow.Lib.History

/-!
# Histories of the Server Threads

The four server threads of `key_value_stores/server.cc` with the history of the requests
they have processed and the responses they have given. Gossip is less well behaved here
than in `LatticeFlow.Gossip`: a published message stays available, and its recipient may
receive it late, out of order, more than once, or never.

A BEGIN is answered with the thread's local timestamp and the thread's identifier, written
as decimal numbers one after the other and read back as one number. There are fewer than
ten threads, so this number is ten times the local timestamp plus the identifier
(`stoi_stdToString`), and it determines both.

A GET is answered with the thread's entry for the key. Entries come from PUTs
(`LatticeFlow.Server`), and a thread replaces an entry only by a join with it, which is
larger in the lexicographic order of timestamp and value (`stamped_le_join`).

## Main results

* `timestamps_unique`: no timestamp is handed out twice.
* `reads_valid_and_monotone`: a GET answers what one PUT has stored, and the answers of a
  thread for one key never decrease.
-/

namespace LatticeFlow

/-! ### The machine -/

/-- A processed request. -/
structure Served where
  thread : ThreadId
  request : Request
  response : Response

/-- The threads, the messages published so far, and the processed requests. -/
structure ServerRun where
  threads : ThreadId → State
  published : List Gossip
  served : List Served

/-- A step: thread `i` processes a request, or the message at position `n` is received
once more. -/
inductive ServerAction
  | request (i : ThreadId) (request : Request)
  | receive (n : ℕ)

namespace ServerRun

/-- Thread `i` processes a request; `none` if an exception ends the server. -/
def request (s : ServerRun) (i : ThreadId) (request : Request) : Option ServerRun :=
  match processRequest request (s.threads i) with
  | .error _ => none
  | .ok (response, state, published) =>
      some
        { threads := Function.update s.threads i state
          published := s.published ++ publish i published
          served := s.served ++ [⟨i, request, response⟩] }

/-- The message `g` is received. -/
def receive (s : ServerRun) (g : Gossip) : ServerRun :=
  { s with
    threads := Function.update s.threads g.dst
      { s.threads g.dst with kvs := receiveGossip (s.threads g.dst).kvs g.db } }

end ServerRun

/-- The machine of the four threads with their history. -/
def serverThreads : Machine ServerRun ServerAction where
  init := ⟨cluster.init.threads, [], []⟩
  step s
    | .request i request => s.request i request
    | .receive n => (s.published[n]?).map s.receive

/-- What a step does. -/
theorem serverThreads_step_cases {s s' : ServerRun} {a : ServerAction}
    (h : serverThreads.step s a = some s') :
    (∃ i request response state published,
      processRequest request (s.threads i) = .ok (response, state, published) ∧
      s' = { threads := Function.update s.threads i state
             published := s.published ++ publish i published
             served := s.served ++ [⟨i, request, response⟩] }) ∨
    ∃ g ∈ s.published, s' = s.receive g := by
  cases a with
  | request i request =>
      left
      simp only [serverThreads, ServerRun.request] at h
      split at h
      · cases h
      · rename_i hproc
        cases h
        exact ⟨i, request, _, _, _, hproc, rfl⟩
  | receive n =>
      right
      obtain ⟨g, hg, rfl⟩ := Option.map_eq_some_iff.mp h
      exact ⟨g, List.mem_of_getElem? hg, rfl⟩

/-- A request that a thread can process is a step. -/
theorem serverThreads_step_request {s : ServerRun} {i : ThreadId} {request : Request}
    {response : Response} {state : State} {published : Option Database}
    (h : processRequest request (s.threads i) = .ok (response, state, published)) :
    serverThreads.step s (.request i request) =
      some { threads := Function.update s.threads i state
             published := s.published ++ publish i published
             served := s.served ++ [⟨i, request, response⟩] } := by
  simp only [serverThreads, ServerRun.request, h]

/-! ### Timestamps -/

/-- A digit is not skipped as white space. -/
theorem isSpace_of_isDigit {c : Char} (h : c.isDigit = true) : isSpace c = false := by
  have hle : 48 ≤ c.toNat := by
    simp only [Char.isDigit, Bool.and_eq_true, decide_eq_true_eq] at h
    exact h.1
  have hne : c ≠ ' ' := by
    rintro rfl
    revert hle
    decide
  simp [isSpace, hne]
  omega

/-- The loop of `std::stoi` over digits. -/
theorem foldl_digits (s : List Char) (m : ℕ) :
    s.foldl (fun n c => 10 * n + ((c.toNat - '0'.toNat : ℕ) : ℤ)) (m : ℤ) =
      (Nat.ofDigitChars 10 s m : ℤ) := by
  induction s generalizing m with
  | nil => simp
  | cons c s ih =>
      rw [List.foldl_cons, Nat.ofDigitChars_cons, ← ih]
      push_cast
      rfl

/-- `std::stoi` of digits is their value, if that is an `int`. -/
theorem stoi_of_digits {s : List Char} (hs : ∀ c ∈ s, c.isDigit = true) (hne : s ≠ []) :
    stoi s = if Nat.ofDigitChars 10 s 0 < 2 ^ 31 then .ok (Nat.ofDigitChars 10 s 0 : ℤ)
      else .error .stoiOutOfRange := by
  have hspace : s.dropWhile isSpace = s := by
    cases s with
    | nil => rfl
    | cons c s => simp [isSpace_of_isDigit (hs c List.mem_cons_self)]
  have hsign : ∀ c : Char, c.isDigit = false → (s.head? == some c) = false := by
    intro c hc
    cases s with
    | nil => rfl
    | cons d s =>
        have hd := hs d List.mem_cons_self
        rw [List.head?_cons, beq_eq_false_iff_ne]
        rintro ⟨⟩
        simp [hc] at hd
  have hdigits : s.takeWhile Char.isDigit = s := List.takeWhile_eq_self_iff.mpr hs
  have hfold : s.foldl (fun n c => 10 * n + ((c.toNat - '0'.toNat : ℕ) : ℤ)) 0 =
      (Nat.ofDigitChars 10 s 0 : ℤ) := foldl_digits s 0
  simp only [stoi, hspace, hsign '-' rfl, hsign '+' rfl, Bool.or_self, Bool.false_eq_true,
    if_false, hdigits, if_neg hne, hfold]
  refine if_congr ?_ rfl rfl
  omega

/-- **Two numbers written one after the other**, the second one with a single digit, read
as ten times the first one plus the second one. -/
theorem stoi_stdToString {n i : ℕ} (hi : i < 10) :
    stoi (stdToString n ++ stdToString i) =
      if 10 * n + i < 2 ^ 31 then .ok ((10 * n + i : ℕ) : ℤ) else .error .stoiOutOfRange := by
  have hval : Nat.ofDigitChars 10 (stdToString n ++ stdToString i) 0 = 10 * n + i := by
    simp only [stdToString]
    rw [Nat.ofDigitChars_append, Nat.ofDigitChars_ten_toDigits, Nat.toDigits_of_lt_base hi,
      Nat.ofDigitChars_cons_digitChar_of_lt_ten hi, Nat.ofDigitChars_nil]
  rw [stoi_of_digits, hval]
  · intro c hc
    rcases List.mem_append.mp hc with hc | hc
    · exact Nat.isDigit_of_mem_toDigits (by omega) (by omega) hc
    · exact Nat.isDigit_of_mem_toDigits (by omega) (by omega) hc
  · simp [stdToString, Nat.toDigits_ne_nil]

/-- **What a BEGIN answers**: ten times the local timestamp plus the identifier, which is
an `int`. -/
theorem processRequest_begin {state state' : State} {response : Response}
    {published : Option Database} (hid : state.thread_id < 10)
    (h : processRequest .beginTransaction state = .ok (response, state', published)) :
    10 * state.local_timestamp + state.thread_id < 2 ^ 31 ∧
      response =
        { succeed := some true
          timestamp := some (Int64.ofInt (10 * state.local_timestamp + state.thread_id : ℕ)) } ∧
      state'.local_timestamp = state.local_timestamp + 1 := by
  obtain ⟨st, hd, -, hlocal, -⟩ := dispatch_of_processRequest h
  simp only [dispatch, stoi_stdToString hid] at hd
  split_ifs at hd with hlt
  · cases hd
    exact ⟨hlt, rfl, hlocal⟩

/-- Only a BEGIN advances the local timestamp. -/
theorem processRequest_local_timestamp {request : Request} {state state' : State}
    {response : Response} {published : Option Database} (hne : request ≠ .beginTransaction)
    (h : processRequest request state = .ok (response, state', published)) :
    state'.local_timestamp = state.local_timestamp := by
  obtain ⟨st, hd, -, hlocal, -⟩ := dispatch_of_processRequest h
  rw [hlocal]
  cases request with
  | beginTransaction => exact absurd rfl hne
  | get key =>
      simp only [dispatch] at hd
      split_ifs at hd
      · cases hd
        rfl
      · split at hd
        · cases hd
        · cases hd
          rfl
  | put timestamp kv_pair =>
      simp only [dispatch, Except.ok.injEq, Prod.mk.injEq] at hd
      obtain ⟨-, rfl⟩ := hd
      rw [foldl_putPair]
  | notSet =>
      cases hd
      rfl

/-- The identifier of a thread does not change. -/
theorem processRequest_thread_id {request : Request} {state state' : State}
    {response : Response} {published : Option Database}
    (h : processRequest request state = .ok (response, state', published)) :
    state'.thread_id = state.thread_id := by
  obtain ⟨st, hd, -, -, hid⟩ := dispatch_of_processRequest h
  rw [hid, (dispatch_ok hd).thread_id]

/-- The thread and the timestamp of a response to a BEGIN. -/
def Served.begun (e : Served) : Option (ThreadId × Int64) :=
  match e.request with
  | .beginTransaction => some (e.thread, e.response.timestamp.getD 0)
  | _ => none

/-- The timestamps that the threads have handed out so far. -/
def ServerRun.begun (s : ServerRun) : List (ThreadId × Int64) :=
  s.served.filterMap Served.begun

/-- The timestamps of thread `i` are ten times a number below its local timestamp plus
`i`; they increase, and all timestamps are different. -/
structure BeginInv (s : ServerRun) : Prop where
  thread_id : ∀ i, (s.threads i).thread_id = i
  below : ∀ e ∈ s.begun, ∃ n < (s.threads e.1).local_timestamp, e.2.toInt = 10 * n + e.1
  nodup : (s.begun.map Prod.snd).Nodup
  increasing : ∀ i, ((s.begun.filter (·.1 = i)).map Prod.snd).Pairwise (· < ·)

/-- Steps that hand out no timestamp. -/
theorem BeginInv.congr {s s' : ServerRun} (hs : BeginInv s) (hbegun : s'.begun = s.begun)
    (hid : ∀ i, (s'.threads i).thread_id = (s.threads i).thread_id)
    (hlocal : ∀ i, (s'.threads i).local_timestamp = (s.threads i).local_timestamp) :
    BeginInv s' := by
  refine ⟨fun i => (hid i).trans (hs.thread_id i), ?_, hbegun ▸ hs.nodup,
    hbegun ▸ hs.increasing⟩
  rw [hbegun]
  intro e he
  rw [hlocal]
  exact hs.below e he

/-- There are four threads. -/
theorem thread_lt (i : ThreadId) : (i : ℕ) < 4 := i.isLt

/-- **A BEGIN** hands out a new timestamp, larger than those of its thread. -/
theorem BeginInv.begin {s s' : ServerRun} (hs : BeginInv s) {i : ThreadId} {state : State}
    {response : Response} {published : Option Database}
    (h : processRequest .beginTransaction (s.threads i) = .ok (response, state, published))
    (hthreads : s'.threads = Function.update s.threads i state)
    (hbegun : s'.begun = s.begun ++ [(i, response.timestamp.getD 0)]) : BeginInv s' := by
  have hi : (s.threads i).thread_id = i := hs.thread_id i
  have hfour := thread_lt i
  obtain ⟨hlt, hresponse, hlocal⟩ := processRequest_begin (by omega) h
  have hstamp : (response.timestamp.getD 0).toInt = 10 * (s.threads i).local_timestamp + i := by
    rw [hresponse, Option.getD_some, Int64.toInt_ofInt_of_le (by omega) (by omega), hi]
    push_cast
    rfl
  have hold : ∀ e ∈ s.begun, e.2 ≠ response.timestamp.getD 0 := by
    intro e he heq
    obtain ⟨n, hn, hval⟩ := hs.below e he
    rw [heq, hstamp] at hval
    have hfour' := thread_lt e.1
    obtain rfl : e.1 = i := Fin.ext (by omega)
    omega
  refine ⟨fun j => ?_, ?_, ?_, fun j => ?_⟩
  · rw [hthreads]
    by_cases hj : j = i
    · subst hj
      rw [Function.update_self, processRequest_thread_id h, hi]
    · rw [Function.update_of_ne hj]
      exact hs.thread_id j
  · rw [hbegun, hthreads]
    intro e he
    rcases List.mem_append.mp he with he | he
    · obtain ⟨n, hn, hval⟩ := hs.below e he
      refine ⟨n, ?_, hval⟩
      by_cases hj : e.1 = i
      · rw [hj] at hn
        rw [hj, Function.update_self, hlocal]
        omega
      · rwa [Function.update_of_ne hj]
    · obtain rfl := List.mem_singleton.mp he
      refine ⟨(s.threads i).local_timestamp, ?_, hstamp⟩
      rw [Function.update_self, hlocal]
      omega
  · rw [hbegun, List.map_append, List.nodup_append]
    refine ⟨hs.nodup, List.nodup_singleton _, ?_⟩
    rintro a ha b hb rfl
    obtain ⟨e, he, rfl⟩ := List.mem_map.mp ha
    exact hold e he (List.mem_singleton.mp hb)
  · rw [hbegun, List.filter_append, List.map_append, List.pairwise_append]
    refine ⟨hs.increasing j, ?_, ?_⟩
    · by_cases hj : i = j <;> simp [hj]
    · intro a ha b hb
      obtain ⟨e, he, rfl⟩ := List.mem_map.mp ha
      obtain ⟨hmem, hej⟩ := List.mem_filter.mp he
      obtain ⟨e', he', rfl⟩ := List.mem_map.mp hb
      obtain ⟨hmem', hej'⟩ := List.mem_filter.mp he'
      obtain rfl := List.mem_singleton.mp hmem'
      obtain ⟨n, hn, hval⟩ := hs.below e hmem
      have hei : e.1 = i := (of_decide_eq_true hej).trans (of_decide_eq_true hej').symm
      rw [hei] at hn hval
      rw [Int64.lt_iff_toInt_lt, hval, hstamp]
      omega

/-- **The invariant** holds in every state of every run. -/
theorem beginInv_of_reachable {s : ServerRun} (h : serverThreads.Reachable s) : BeginInv s := by
  refine Machine.Reachable.invariant (I := BeginInv) ?_ (fun s a s' _ hs hstep => ?_) h
  · refine ⟨fun i => rfl, fun e he => ?_, List.nodup_nil, fun i => List.Pairwise.nil⟩
    cases he
  · rcases serverThreads_step_cases hstep with
      ⟨i, request, response, state, published, hproc, rfl⟩ | ⟨g, -, rfl⟩
    · by_cases hreq : request = .beginTransaction
      · subst hreq
        refine hs.begin hproc rfl ?_
        rw [ServerRun.begun, List.filterMap_append]
        rfl
      · refine hs.congr ?_ ?_ ?_
        · have hnone : Served.begun ⟨i, request, response⟩ = none := by
            cases request <;> simp_all [Served.begun]
          simp only [ServerRun.begun, List.filterMap_append, List.filterMap_cons_none hnone,
            List.filterMap_nil, List.append_nil]
        · exact (Function.forall_update_iff s.threads fun j st =>
            st.thread_id = (s.threads j).thread_id).mpr
              ⟨processRequest_thread_id hproc, fun _ _ => rfl⟩
        · exact (Function.forall_update_iff s.threads fun j st =>
            st.local_timestamp = (s.threads j).local_timestamp).mpr
              ⟨processRequest_local_timestamp hreq hproc, fun _ _ => rfl⟩
    · refine hs.congr rfl ?_ ?_
      · exact (Function.forall_update_iff s.threads fun j st =>
          st.thread_id = (s.threads j).thread_id).mpr ⟨rfl, fun _ _ => rfl⟩
      · exact (Function.forall_update_iff s.threads fun j st =>
          st.local_timestamp = (s.threads j).local_timestamp).mpr ⟨rfl, fun _ _ => rfl⟩

/-- **Transaction timestamps are globally unique.** In every run of the threads no two
responses to BEGINs carry the same timestamp, those of one thread increase, and a thread
whose local timestamp is at most `214748364` does not throw when it reads the next one. -/
theorem timestamps_unique {s : ServerRun} (h : serverThreads.Reachable s) :
    (s.begun.map Prod.snd).Nodup ∧
    (∀ i, ((s.begun.filter (·.1 = i)).map Prod.snd).Pairwise (· < ·)) ∧
    ∀ i, (s.threads i).local_timestamp ≤ 214748364 → ∃ t,
      stoi (stdToString (s.threads i).local_timestamp ++
        stdToString (s.threads i).thread_id) = .ok t := by
  have hinv := beginInv_of_reachable h
  refine ⟨hinv.nodup, hinv.increasing, fun i hle => ?_⟩
  have hid := hinv.thread_id i
  have hfour := thread_lt i
  rw [stoi_stdToString (by omega), if_pos (by omega)]
  exact ⟨_, rfl⟩

/-- Three BEGINs, two of them at thread `0`. -/
def threeBegins : List ServerAction :=
  [.request 0 .beginTransaction, .request 3 .beginTransaction, .request 0 .beginTransaction]

/-- The timestamps of `threeBegins` are different, and nothing throws after it. -/
theorem timestamps_unique_three_begins : ∃ s,
    serverThreads.run serverThreads.init threeBegins = some s ∧
      s.begun = [(0, 0), (3, 3), (0, 10)] ∧ (s.begun.map Prod.snd).Nodup ∧
      ∃ t, stoi (stdToString (s.threads 0).local_timestamp ++
        stdToString (s.threads 0).thread_id) = .ok t := by
  have hrun : (serverThreads.run serverThreads.init threeBegins).map (fun s =>
      (s.begun, (s.threads 0).local_timestamp)) = some ([(0, 0), (3, 3), (0, 10)], 2) := by
    decide
  obtain ⟨s, hs, heq⟩ := Option.map_eq_some_iff.mp hrun
  obtain ⟨hbegun, hlocal⟩ := Prod.mk.inj heq
  obtain ⟨hnodup, -, hok⟩ := timestamps_unique (Machine.reachable_of_run hs)
  exact ⟨s, hs, hbegun, hnodup, hok 0 (by omega)⟩

/-! ### Reads -/

/-- Timestamp and value of an entry, in the lexicographic order. -/
def stamped (e : TimestampedStringLattice) : ℤ ×ₗ Bytes :=
  toLex (e.timestamp.get, e.value.get)

/-- Timestamp and value that a response carries. -/
def Response.stamped (r : Response) : ℤ ×ₗ Bytes :=
  toLex ((r.timestamp.getD 0).toInt, r.value.getD [])

/-- **A join keeps the larger entry.** -/
theorem stamped_join (x y : TimestampedStringLattice) :
    stamped (Lattice.join x y) = max (stamped x) (stamped y) := by
  obtain ⟨⟨tx⟩, ⟨vx⟩⟩ := x
  obtain ⟨⟨ty⟩, ⟨vy⟩⟩ := y
  by_cases hlt : tx < ty
  · rw [TimestampLattice.join_of_lt (decide_eq_true hlt), max_eq_right]
    exact Prod.Lex.toLex_le_toLex.mpr (Or.inl hlt)
  by_cases hgt : ty < tx
  · rw [TimestampLattice.join_of_gt (fun h => hlt (of_decide_eq_true h)) (decide_eq_true hgt),
      max_eq_left]
    exact Prod.Lex.toLex_le_toLex.mpr (Or.inl hgt)
  · obtain rfl : tx = ty := le_antisymm (not_lt.mp hgt) (not_lt.mp hlt)
    rw [TimestampLattice.join_of_not_lt
      (l := (⟨(⟨tx⟩, ⟨vx⟩)⟩ : TimestampedStringLattice)) (r := ⟨(⟨tx⟩, ⟨vy⟩)⟩)
      (fun h => hlt (of_decide_eq_true h)) (fun h => hgt (of_decide_eq_true h))]
    by_cases hv : vx < vy
    · rw [max_eq_right]
      · simp [stamped, Lattice.join, TimestampLattice.timestamp, TimestampLattice.value, hv]
      · exact Prod.Lex.toLex_le_toLex.mpr (Or.inr ⟨rfl, hv.le⟩)
    · rw [max_eq_left]
      · simp [stamped, Lattice.join, TimestampLattice.timestamp, TimestampLattice.value, hv]
      · exact Prod.Lex.toLex_le_toLex.mpr (Or.inr ⟨rfl, not_lt.mp hv⟩)

/-- A join is not smaller than its left side. -/
theorem stamped_le_join (x y : TimestampedStringLattice) :
    stamped x ≤ stamped (Lattice.join x y) := by
  rw [stamped_join]
  exact le_max_left _ _

/-- Every entry of the first database has a larger one in the second. -/
def Grows (db db' : Database) : Prop :=
  ∀ k x, db.get? k = some x → ∃ x', db'.get? k = some x' ∧ stamped x ≤ stamped x'

/-- A database that does not change grows. -/
theorem Grows.refl (db : Database) : Grows db db :=
  fun _ x hx => ⟨x, hx, le_rfl⟩

/-- Growth adds up. -/
theorem Grows.trans {db db' db'' : Database} (h : Grows db db') (h' : Grows db' db'') :
    Grows db db'' := by
  intro k x hx
  obtain ⟨x', hx', hle⟩ := h k x hx
  obtain ⟨x'', hx'', hle'⟩ := h' k x' hx'
  exact ⟨x'', hx'', hle.trans hle'⟩

/-- Joining something into an entry keeps it, larger. -/
theorem exists_joinEntry (x : TimestampedStringLattice) (y : Option TimestampedStringLattice) :
    ∃ x', joinEntry (some x) y = some x' ∧ stamped x ≤ stamped x' := by
  cases y with
  | none => exact ⟨x, rfl, le_rfl⟩
  | some y => exact ⟨_, rfl, stamped_le_join x y⟩

/-- A join makes a database grow. -/
theorem Grows.join (db db' : Database) : Grows db (Lattice.join db db') := by
  intro k x hx
  rw [MapLattice.lookup_join, hx]
  exact exists_joinEntry x _

/-- So does a put. -/
theorem Grows.put (db : Database) (k : Bytes) (e : TimestampedStringLattice) :
    Grows db (db.put k e) := by
  intro k' x hx
  rw [MapLattice.lookup_put]
  split_ifs with hk
  · subst hk
    rw [hx]
    exact exists_joinEntry x _
  · exact ⟨x, hx, le_rfl⟩

/-- And so do several of them. -/
theorem Grows.putAll (db : Database) (entries : List (Bytes × TimestampedStringLattice)) :
    Grows db (putAll db entries) := by
  induction entries generalizing db with
  | nil => exact Grows.refl db
  | cons e es ih => exact (Grows.put db e.1 e.2).trans (ih (db.put e.1 e.2))

/-- A PUT that stores something succeeds. -/
theorem processRequest_put_succeed {request : Request} {state state' : State}
    {response : Response} {published : Option Database}
    {e : Bytes × TimestampedStringLattice} (he : e ∈ acceptedEntries request)
    (h : processRequest request state = .ok (response, state', published)) :
    response.succeed = some true := by
  cases request with
  | put t kv_pair =>
      obtain ⟨st, hd, -⟩ := dispatch_of_processRequest h
      cases hd
      rfl
  | beginTransaction => cases he
  | get key => cases he
  | notSet => cases he

/-- A PUT among the processed requests has stored the entry `e` for `k`. -/
def Stored (served : List Served) (k : Bytes) (e : TimestampedStringLattice) : Prop :=
  ∃ d ∈ served, (k, e) ∈ acceptedEntries d.request ∧ d.response.succeed = some true

/-- What one PUT has stored stays stored by it. -/
theorem Stored.append {served : List Served} {k : Bytes} {e : TimestampedStringLattice}
    (h : Stored served k e) (d : Served) : Stored (served ++ [d]) k e := by
  obtain ⟨d', hd', hrest⟩ := h
  exact ⟨d', List.mem_append_left _ hd', hrest⟩

/-- What the response to a GET of a stored entry carries. -/
theorem stamped_getResponse {served : List Served} {k : Bytes} {e : TimestampedStringLattice}
    (h : Stored served k e) : (getResponse (some e)).stamped = stamped e := by
  obtain ⟨d, -, hmem, -⟩ := h
  cases hreq : d.request with
  | put t kv_pair =>
      rw [hreq] at hmem
      obtain ⟨p, -, heq⟩ := List.mem_map.mp hmem
      obtain ⟨-, rfl⟩ := Prod.mk.inj heq
      exact congrArg (fun t => toLex (t, p.value)) (toInt_ofInt_narrow t)
  | beginTransaction => rw [hreq] at hmem; cases hmem
  | get key => rw [hreq] at hmem; cases hmem
  | notSet => rw [hreq] at hmem; cases hmem

/-- A successful response to a GET of `k`. -/
def Served.Reads (e : Served) (k : Bytes) : Prop :=
  e.request = .get k ∧ e.response.succeed = some true

/-- The read answers with an entry stored before. -/
def ReadsStored (past : List Served) (e : Served) : Prop :=
  ∀ k, e.Reads k → ∃ x, Stored past k x ∧ e.response = getResponse (some x)

/-- The later one of two GETs of a key at one thread succeeds if the earlier one does, and
answers with at least as much. -/
def ReadsMonotone (e e' : Served) : Prop :=
  ∀ k, e.thread = e'.thread → e.Reads k → e'.request = .get k →
    e'.response.succeed = some true ∧ e.response.stamped ≤ e'.response.stamped

/-- Everything that is stored or published comes from PUTs; every read did, and its thread
still has an entry that is at least as large. -/
structure ReadInv (s : ServerRun) : Prop where
  settled : ∀ i, (s.threads i).Settled
  stored : ∀ i, EntriesIn (Stored s.served) (s.threads i).kvs
  published : ∀ g ∈ s.published, EntriesIn (Stored s.served) g.db
  valid : EachAfter ReadsStored s.served
  kept : ∀ e ∈ s.served, ∀ k, e.Reads k → ∃ x,
    (s.threads e.thread).kvs.get? k = some x ∧ e.response.stamped ≤ stamped x
  monotone : s.served.Pairwise ReadsMonotone

/-- What a thread has answered stays below its entry when its database grows. -/
theorem ReadInv.kept_update {s : ServerRun} (hs : ReadInv s) {i : ThreadId} {state : State}
    (hgrows : Grows (s.threads i).kvs state.kvs) :
    ∀ e ∈ s.served, ∀ k, e.Reads k → ∃ x,
      (Function.update s.threads i state e.thread).kvs.get? k = some x ∧
        e.response.stamped ≤ stamped x := by
  intro e he k hreads
  obtain ⟨x, hx, hle⟩ := hs.kept e he k hreads
  by_cases hi : e.thread = i
  · rw [hi] at hx
    obtain ⟨x', hx', hle'⟩ := hgrows k x hx
    rw [hi, Function.update_self]
    exact ⟨x', hx', hle.trans hle'⟩
  · rw [Function.update_of_ne hi]
    exact ⟨x, hx, hle⟩

/-- A received message joins stored entries into stored entries. -/
theorem ReadInv.receive {s : ServerRun} (hs : ReadInv s) {g : Gossip} (hg : g ∈ s.published) :
    ReadInv (s.receive g) := by
  refine ⟨?_, ?_, hs.published, hs.valid, hs.kept_update (Grows.join _ _), hs.monotone⟩
  · exact (Function.forall_update_iff s.threads fun _ st => State.Settled st).mpr
      ⟨⟨(hs.settled g.dst).update_counter, (hs.settled g.dst).change_set⟩,
        fun j _ => hs.settled j⟩
  · have hjoin := (hs.stored g.dst).join (hs.published g hg)
    exact (Function.forall_update_iff s.threads fun _ st =>
      EntriesIn (Stored s.served) (State.kvs st)).mpr ⟨hjoin, fun j _ => hs.stored j⟩

/-- **A processed request** stores, publishes and answers stored entries. -/
theorem ReadInv.request {s : ServerRun} (hs : ReadInv s) {i : ThreadId} {request : Request}
    {response : Response} {state : State} {published : Option Database}
    (h : processRequest request (s.threads i) = .ok (response, state, published)) :
    ReadInv
      { threads := Function.update s.threads i state
        published := s.published ++ publish i published
        served := s.served ++ [⟨i, request, response⟩] } := by
  obtain ⟨hset, hkvs, -, -⟩ := processRequest_ok (hs.settled i) h
  have hgrows : Grows (s.threads i).kvs state.kvs := hkvs ▸ Grows.putAll _ _
  have hold : ∀ j, EntriesIn (Stored (s.served ++ [⟨i, request, response⟩]))
      (s.threads j).kvs :=
    fun j k e he => (hs.stored j k e he).append _
  have hstate : EntriesIn (Stored (s.served ++ [⟨i, request, response⟩])) state.kvs := by
    rw [hkvs]
    refine (hold i).putAll fun e he => ⟨⟨i, request, response⟩, by simp, he, ?_⟩
    exact processRequest_put_succeed he h
  -- What a GET answers, and what the thread had for it before.
  have hget : ∀ k, request = .get k → response = getResponse ((s.threads i).kvs.get? k) := by
    rintro k rfl
    exact processRequest_get_response h
  have hread : ∀ k, Served.Reads ⟨i, request, response⟩ k → ∃ x,
      (s.threads i).kvs.get? k = some x ∧ response = getResponse (some x) := by
    rintro k ⟨hreq, hsucceed⟩
    have hresponse := hget k hreq
    cases hx : (s.threads i).kvs.get? k with
    | none =>
        rw [hresponse, hx] at hsucceed
        cases hsucceed
    | some x => exact ⟨x, rfl, hx ▸ hresponse⟩
  refine ⟨?_, ?_, fun g hg => ?_, hs.valid.append fun k hk => ?_, fun e he k hk => ?_, ?_⟩
  · exact (Function.forall_update_iff s.threads fun _ st => State.Settled st).mpr
      ⟨hset, fun j _ => hs.settled j⟩
  · exact (Function.forall_update_iff s.threads fun _ st =>
      EntriesIn (Stored _) (State.kvs st)).mpr ⟨hstate, fun j _ => hold j⟩
  · rcases List.mem_append.mp hg with hg | hg
    · exact fun k e he => (hs.published g hg k e he).append _
    · cases published with
      | none => cases hg
      | some db =>
          obtain ⟨j, -, rfl⟩ := List.mem_map.mp hg
          exact EntriesIn.published hstate h
  · obtain ⟨x, hx, hresponse⟩ := hread k hk
    exact ⟨x, hs.stored i k x hx, hresponse⟩
  · rcases List.mem_append.mp he with he | he
    · exact hs.kept_update hgrows e he k hk
    · obtain rfl := List.mem_singleton.mp he
      obtain ⟨x, hx, hresponse⟩ := hread k hk
      obtain ⟨x', hx', hle⟩ := hgrows k x hx
      refine ⟨x', by simpa using hx', ?_⟩
      rw [hresponse, stamped_getResponse (hs.stored i k x hx)]
      exact hle
  · refine List.pairwise_append.mpr ⟨hs.monotone, List.pairwise_singleton _ _, ?_⟩
    intro e he e' he' k hthread hreads hreq
    obtain rfl := List.mem_singleton.mp he'
    obtain ⟨x, hx, hle⟩ := hs.kept e he k hreads
    rw [hthread] at hx
    have hresponse := hget k hreq
    rw [hx] at hresponse
    rw [hresponse, stamped_getResponse (hs.stored i k x hx)]
    exact ⟨rfl, hle⟩

/-- **The invariant** holds in every state of every run. -/
theorem readInv_of_reachable {s : ServerRun} (h : serverThreads.Reachable s) : ReadInv s := by
  refine Machine.Reachable.invariant (I := ReadInv) ?_ (fun s a s' _ hs hstep => ?_) h
  · refine ⟨fun i => ⟨rfl, rfl⟩, fun i => EntriesIn.empty, fun g hg => ?_, EachAfter.nil,
      fun e he => ?_, List.Pairwise.nil⟩
    · cases hg
    · cases he
  · rcases serverThreads_step_cases hstep with
      ⟨i, request, response, state, published, hproc, rfl⟩ | ⟨g, hg, rfl⟩
    · exact hs.request hproc
    · exact hs.receive hg

/-- **Reads at a server thread are valid and monotone.** In every run of the threads, with
gossip received in any order and any number of times: a successful GET of `k` answers with
the value and the timestamp, as an `int`, of one pair of one PUT that succeeded before; and
when a thread has answered a GET of `k` with success, its later answers to GETs of `k` are
successful, and at least as large in the lexicographic order of timestamp and value. -/
theorem reads_valid_and_monotone {s : ServerRun} (h : serverThreads.Reachable s) :
    (∀ (past : List Served) (e : Served) (future : List Served) (k : Bytes),
      s.served = past ++ e :: future → e.request = .get k →
      e.response.succeed = some true →
      ∃ d ∈ past, ∃ (t : Int64) (kv_pair : List KeyValuePair) (v : Bytes),
        d.request = .put t kv_pair ∧ d.response.succeed = some true ∧
        ⟨k, v⟩ ∈ kv_pair ∧ e.response.value = some v ∧
        e.response.timestamp = some (Int64.ofInt (narrow t))) ∧
    ∀ (past : List Served) (e : Served) (between : List Served) (e' : Served)
      (future : List Served) (k : Bytes), s.served = past ++ e :: between ++ e' :: future →
      e.thread = e'.thread → e.request = .get k → e.response.succeed = some true →
      e'.request = .get k →
      e'.response.succeed = some true ∧ e.response.stamped ≤ e'.response.stamped := by
  have hinv := readInv_of_reachable h
  constructor
  · intro past e future k hserved hreq hsucceed
    obtain ⟨x, ⟨d, hd, hmem, hput⟩, hresponse⟩ :=
      hinv.valid past e future hserved k ⟨hreq, hsucceed⟩
    cases hdreq : d.request with
    | put t kv_pair =>
        rw [hdreq] at hmem
        obtain ⟨⟨k', v⟩, hp, heq⟩ := List.mem_map.mp hmem
        obtain ⟨rfl, rfl⟩ := Prod.mk.inj heq
        rw [hresponse]
        exact ⟨d, hd, t, kv_pair, v, hdreq, hput, hp, rfl, rfl⟩
    | beginTransaction => rw [hdreq] at hmem; cases hmem
    | get key => rw [hdreq] at hmem; cases hmem
    | notSet => rw [hdreq] at hmem; cases hmem
  · intro past e between e' future k hserved hthread hreq hsucceed hreq'
    have hpair := hinv.monotone
    rw [hserved, List.pairwise_append] at hpair
    exact hpair.2.2 e (by simp) e' (by simp) k hthread ⟨hreq, hsucceed⟩ hreq'

/-- Thread `0` stores a pair that thread `1` receives twice, reads, overwrites and reads. -/
def readTwice : List ServerAction :=
  [.request 0 (.put 7 [⟨[1], [2]⟩]), .receive 0, .request 1 (.get [1]), .receive 0,
   .request 1 (.put 9 [⟨[1], [0]⟩]), .request 1 (.get [1])]

/-- In the run `readTwice` the second answer is larger than the first one. -/
theorem reads_valid_and_monotone_read_twice :
    ∃ (s : ServerRun) (past : List Served) (e : Served) (between : List Served) (e' : Served),
    serverThreads.run serverThreads.init readTwice = some s ∧
      s.served = past ++ e :: between ++ [e'] ∧ e.response.value = some [2] ∧
      e'.response.succeed = some true ∧ e.response.stamped ≤ e'.response.stamped := by
  have hrun : (serverThreads.run serverThreads.init readTwice).map (fun s =>
      s.served.map fun e => (e.thread, e.request, e.response)) =
      some [(0, .put 7 [⟨[1], [2]⟩], { succeed := some true }),
        (1, .get [1], { succeed := some true, value := some [2], timestamp := some 7 }),
        (1, .put 9 [⟨[1], [0]⟩], { succeed := some true }),
        (1, .get [1], { succeed := some true, value := some [0], timestamp := some 9 })] := by
    decide
  obtain ⟨s, hs, heq⟩ := Option.map_eq_some_iff.mp hrun
  obtain ⟨e₀, l₁, h₁, -, heq⟩ := List.map_eq_cons_iff.mp heq
  obtain ⟨e, l₂, rfl, he, heq⟩ := List.map_eq_cons_iff.mp heq
  obtain ⟨e₁, l₃, rfl, -, heq⟩ := List.map_eq_cons_iff.mp heq
  obtain ⟨e', l₄, rfl, he', heq⟩ := List.map_eq_cons_iff.mp heq
  obtain rfl := List.map_eq_nil_iff.mp heq
  obtain ⟨i, request, response⟩ := e
  obtain ⟨i', request', response'⟩ := e'
  simp only [Prod.mk.injEq] at he he'
  obtain ⟨rfl, rfl, rfl⟩ := he
  obtain ⟨rfl, rfl, rfl⟩ := he'
  refine ⟨s, [e₀], _, [e₁], _, hs, h₁, rfl, ?_⟩
  exact (reads_valid_and_monotone (Machine.reachable_of_run hs)).2 [e₀] _ [e₁] _ [] [1] h₁
    rfl rfl rfl rfl

end LatticeFlow
