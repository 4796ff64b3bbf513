import Mathlib.Algebra.Order.BigOperators.Group.List
import Mathlib.Algebra.Ring.Int.Defs
import Mathlib.Data.List.Perm.Basic
import LatticeFlow.Dedup
import LatticeFlow.Envelope
import LatticeFlow.ServerHistory
import LatticeFlow.Timer

/-!
# The Example Server of Click

`click/example_server.cc` is the program that uses the elements of `click/` together. The
main thread runs a driver. A request that arrives at the router is sent to the workers four
times, and starts a timer for its connection id. Each worker answers with the length of the
message plus its own number. An answer is collected in a `GroupBy` under its connection id,
and then counted in a `Dedup` of four copies; a group is ended when its fourth answer has
been counted, or when the timer of a request expires. The sum of the answers of a group
that is ended is sent to the connection id that it was ended for.

Here the parts are those of the other modules: the driver and its timer of
`LatticeFlow.Timer`, the messages of `LatticeFlow.Envelope`, and the comparison of
connection ids of `LatticeFlow.ZmqUtil`, which the maps of `GroupBy` and `Dedup` use. That
comparison never holds, so both maps have one entry at most: all clients are in one group.

Requests arrive at any time, and timers expire at any time. A worker takes any message that
is on its way to the workers, works on one at a time, and its answers are received in any
order. The overflow of an `int` is undefined, and an exception ends the program; both make
the state a `failure`.

The requests that have arrived, those received, the messages the workers have answered, the
answers received and the groups ended are ghosts.

## Main results

* `Collector.receive_ok`, `Collector.endGroup_ok`: what an answer and the end of a group do.
* `exampleServer_accounts`: what becomes of requests and answers in every run with short
  requests and less than `2 ^ 31` of them.
-/

namespace LatticeFlow

/-! ### GroupBy and Dedup over any comparison -/

section Comparison

variable {K V : Type} (lt : K → K → Bool)

/-- `GroupBy::push_call` of `click/`, as in `LatticeFlow.GroupBy`, where keys have a linear order;
connection ids have none. -/
def GroupBy.pushCallBy (groups_ : OrderedMap K (List V)) (x : K × V) : OrderedMap K (List V) :=
  groups_.update lt x.1 fun xs => xs.getD [] ++ [x.2]

/-- `GroupBy::end_call` of `click/`, with a downstream that does not call back: what it is
given, and the map afterwards. -/
def GroupBy.endCallBy (groups_ : OrderedMap K (List V)) (group : K) :
    (K × List V) × OrderedMap K (List V) :=
  match groups_.find lt group with
  | none => ((group, []), groups_)
  | some xs => ((group, xs), (groups_.update lt group fun _ => []).erase lt group)

/-- `Dedup::push` of `click/`, as in `LatticeFlow.Dedup`: whether the element is handed on, and the
map afterwards. -/
def clickDedupBy (num_dups_ : ℕ) (counts_ : OrderedMap K ℕ) (x : K) : Bool × OrderedMap K ℕ :=
  match counts_.find lt x with
  | none => (false, counts_.update lt x fun _ => 1)
  | some c =>
      let counts_ := counts_.update lt x fun _ => c + 1
      if c + 1 = num_dups_ then (true, counts_.erase lt x) else (false, counts_)

end Comparison

/-! ### Numbers and texts -/

/-- `kNumWorkers`. -/
def kNumWorkers : ℕ := 4

instance : NeZero kNumWorkers := ⟨by decide⟩

/-- Why the program does not go on. -/
inductive ServerFailure
  /-- An `int` has overflown. -/
  | overflow
  /-- An exception that is not caught. -/
  | exception (e : Exn)
  deriving DecidableEq, Repr

/-- The sum of two `int`s. -/
def intAdd (a b : ℤ) : Except ServerFailure ℤ :=
  if -2 ^ 31 ≤ a + b ∧ a + b < 2 ^ 31 then .ok (a + b) else .error .overflow

/-- `std::accumulate` of `int`s from zero. -/
def accumulate (xs : List ℤ) : Except ServerFailure ℤ :=
  xs.foldlM intAdd 0

/-- `std::to_string` of an `int`. -/
def intToString (i : ℤ) : List Char :=
  if i < 0 then '-' :: stdToString i.natAbs else stdToString i.natAbs

/-- `string_to_message`. -/
def stringToMessage (s : List Char) : Bytes :=
  s.map fun c => Fin.ofNat 256 c.toNat

/-- `message_to_string`. -/
def messageToString (message : Bytes) : List Char :=
  message.map fun b : Byte => Char.ofNat b.val

/-- `make_group_evnmsg`. -/
def makeGroupEvnmsg (env : EnvelopedMessage) : Except ServerFailure (ConnectionId × ℤ) :=
  match stoi (messageToString env.msg) with
  | .error e => .error (.exception e)
  | .ok i => .ok (env.cid, i)

/-- `extract_envmsg_cid`. -/
def extractEnvmsgCid (env : EnvelopedMessage) : ConnectionId :=
  env.cid

/-- `reduce_group`. -/
def reduceGroup (group : ConnectionId × List ℤ) : Except ServerFailure EnvelopedMessage := do
  let sum ← accumulate group.2
  .ok ⟨group.1, stringToMessage (intToString sum)⟩

/-- What `length_plus_i` makes of a message. The size of a message is converted to an
`int`. -/
def lengthPlusI (i : Fin kNumWorkers) (env : EnvelopedMessage) :
    Except ServerFailure EnvelopedMessage := do
  let msg_len := (env.msg.length : ℤ).bmod (2 ^ 32)
  let sum ← intAdd msg_len i
  .ok { env with msg := stringToMessage (intToString sum) }

/-! ### The elements behind the workers -/

/-- `group_by`, `dedup`, `reduce` and `out`, with what has come in and gone out. -/
structure Collector where
  groups_ : OrderedMap ConnectionId (List ℤ) := []
  counts_ : OrderedMap ConnectionId ℕ := []
  /-- The messages sent on the router. -/
  out : List (List Frame) := []
  /-- The answers received. -/
  results : List (ConnectionId × ℤ) := []
  /-- The groups ended. -/
  replies : List (ConnectionId × List ℤ) := []
  deriving DecidableEq

namespace Collector

/-- `group_by.end()`, and what follows it. -/
def endGroup (c : Collector) (cid : ConnectionId) : Except ServerFailure Collector := do
  let (group, groups_) := GroupBy.endCallBy ConnectionId.less c.groups_ cid
  let env ← reduceGroup group
  .ok { c with
    groups_ := groups_
    out := c.out ++ [sendEnvelopedMsg env []]
    replies := c.replies ++ [group] }

/-- `from_workers_tee`: the answer is added to its group, and then counted. -/
def receive (c : Collector) (env : EnvelopedMessage) : Except ServerFailure Collector := do
  let x ← makeGroupEvnmsg env.clone
  let c := { c with
    groups_ := GroupBy.pushCallBy ConnectionId.less c.groups_ x
    results := c.results ++ [x] }
  let cid := extractEnvmsgCid env.clone
  let (isLast, counts_) := clickDedupBy ConnectionId.less kNumWorkers c.counts_ cid
  let c ← if isLast then c.endGroup cid else .ok c
  .ok { c with counts_ := counts_ }

end Collector

/-! ### One key -/

section OneKey

variable {K V : Type} {lt : K → K → Bool} (hlt : ∀ a b, lt a b = false)
include hlt

/-- All elements are collected in one group. -/
theorem GroupBy.pushCallBy_of_never {groups : OrderedMap K (List V)} (hone : groups.length ≤ 1)
    (x : K × V) :
    (GroupBy.pushCallBy lt groups x).length ≤ 1 ∧
      (GroupBy.pushCallBy lt groups x).flatMap Prod.snd = groups.flatMap Prod.snd ++ [x.2] := by
  match groups, hone with
  | [], _ => simp [GroupBy.pushCallBy, OrderedMap.update]
  | [e], _ => simp [GroupBy.pushCallBy, OrderedMap.update_cons_of_never hlt]

/-- Whichever group is ended gets all of them. -/
theorem GroupBy.endCallBy_of_never {groups : OrderedMap K (List V)} (hone : groups.length ≤ 1)
    (group : K) : GroupBy.endCallBy lt groups group = ((group, groups.flatMap Prod.snd), []) := by
  match groups, hone with
  | [], _ => rfl
  | [e], _ =>
      simp [GroupBy.endCallBy, OrderedMap.find_of_never hlt, OrderedMap.erase_of_never hlt]

/-- What the map holds when `k` elements have been counted as copies of one. -/
def oneCount (n k : ℕ) : List ℕ :=
  if k % n = 0 then [] else [k % n]

/-- All elements are counted as copies of one. -/
theorem clickDedupBy_of_never {n k : ℕ} (hn : 1 < n) {counts : OrderedMap K ℕ}
    (hcounts : counts.map Prod.snd = oneCount n k) (x : K) :
    (clickDedupBy lt n counts x).1 = decide ((k + 1) % n = 0) ∧
      (clickDedupBy lt n counts x).2.map Prod.snd = oneCount n (k + 1) := by
  by_cases hzero : k % n = 0
  · have hnone : counts = [] := by simpa [oneCount, hzero] using hcounts
    have hsucc : (k + 1) % n = 1 := by rw [Nat.add_mod, hzero, Nat.zero_add, Nat.mod_mod,
      Nat.mod_eq_of_lt hn]
    simp [hnone, clickDedupBy, OrderedMap.find, OrderedMap.update, oneCount, hsucc]
  · obtain ⟨j, rfl⟩ : ∃ j, counts = [(j, k % n)] := by
      rw [oneCount, if_neg hzero] at hcounts
      obtain ⟨e, rfl, he⟩ := List.map_eq_singleton_iff.mp hcounts
      exact ⟨e.1, by rw [← he]⟩
    by_cases hlast : k % n + 1 = n
    · simp [clickDedupBy, OrderedMap.find_of_never hlt, OrderedMap.erase_of_never hlt, hlast,
        succ_mod_of_eq hlast, oneCount]
    · simp [clickDedupBy, OrderedMap.find_of_never hlt, OrderedMap.update_cons_of_never hlt,
        hlast, succ_mod_of_ne (Nat.zero_lt_of_lt hn) hlast, oneCount]

end OneKey

/-! ### Numbers as messages -/

/-- The message that a number is sent as. -/
def numberMessage (n : ℕ) : Bytes :=
  stringToMessage (intToString n)

/-- A message is read back as the text it was made from. -/
theorem messageToString_stringToMessage {s : List Char} (hs : ∀ c ∈ s, c.toNat < 256) :
    messageToString (stringToMessage s) = s := by
  rw [messageToString, stringToMessage, List.map_map]
  refine (List.map_congr_left fun c hc => ?_).trans (List.map_id s)
  have hmod : c.toNat % 256 = c.toNat := Nat.mod_eq_of_lt (hs c hc)
  simp [Fin.ofNat, hmod]

/-- A number that is not negative is written as a natural number is. -/
theorem intToString_natCast (n : ℕ) : intToString n = stdToString n := by
  simp [intToString]

/-- A number that is sent is read back. -/
theorem makeGroupEvnmsg_numberMessage (cid : ConnectionId) {n : ℕ} (hn : n < 2 ^ 31) :
    makeGroupEvnmsg ⟨cid, numberMessage n⟩ = .ok (cid, (n : ℤ)) := by
  have hdigit : ∀ c ∈ stdToString n, c.isDigit = true := fun c hc =>
    Nat.isDigit_of_mem_toDigits (by omega) (by omega) hc
  have hascii : ∀ c ∈ stdToString n, c.toNat < 256 := by
    intro c hc
    have := hdigit c hc
    simp only [Char.isDigit, Bool.and_eq_true, decide_eq_true_eq] at this
    exact lt_of_le_of_lt (UInt32.le_iff_toNat_le.mp this.2) (by decide)
  have hstoi : stoi (stdToString n) = .ok (n : ℤ) := by
    rw [stoi_of_digits hdigit (by simp [stdToString, Nat.toDigits_ne_nil]), stdToString,
      Nat.ofDigitChars_ten_toDigits, if_pos hn]
  simp [makeGroupEvnmsg, numberMessage, intToString_natCast,
    messageToString_stringToMessage hascii, hstoi]

/-- A worker answers a message that is not too long. -/
theorem lengthPlusI_ok {env : EnvelopedMessage} {i : Fin kNumWorkers}
    (h : env.msg.length + i < 2 ^ 31) :
    lengthPlusI i env = .ok { env with msg := numberMessage (env.msg.length + i) } := by
  have hlen : (env.msg.length : ℤ).bmod (2 ^ 32) = env.msg.length :=
    Int.bmod_eq_of_le (by omega) (by omega)
  have hsum : intAdd (env.msg.length : ℤ) i = .ok ((env.msg.length + i : ℕ) : ℤ) := by
    rw [intAdd, if_pos (by omega)]
    push_cast
    rfl
  simp only [lengthPlusI, hlen, hsum, numberMessage]
  rfl

/-- The sum of numbers that are not negative, as long as it is an `int`. -/
theorem foldlM_intAdd {xs : List ℤ} (hxs : ∀ x ∈ xs, 0 ≤ x) {a : ℤ} (ha : 0 ≤ a)
    (hsum : a + xs.sum < 2 ^ 31) : xs.foldlM intAdd a = .ok (a + xs.sum) := by
  induction xs generalizing a with
  | nil => simp [pure, Except.pure]
  | cons x xs ih =>
      have hx := hxs x List.mem_cons_self
      have hrest : ∀ y ∈ xs, 0 ≤ y := fun y hy => hxs y (List.mem_cons_of_mem x hy)
      have hnonneg := List.sum_nonneg hrest
      rw [List.sum_cons, ← add_assoc] at hsum ⊢
      have hadd : intAdd a x = .ok (a + x) := by
        rw [intAdd, if_pos (by omega)]
      rw [List.foldlM_cons, hadd]
      exact ih hrest (by omega) hsum

/-! ### The accounts of the collector -/

/-- The elements at every `n`-th position. -/
def atEvery {α : Type} (n : ℕ) : List α → List α :=
  fromHistory (fun before x => if (before.length + 1) % n = 0 then [x] else []) []

/-- One more element is at the end of a group of `n`, or not. -/
theorem atEvery_concat {α : Type} (n : ℕ) (xs : List α) (x : α) :
    atEvery n (xs ++ [x]) = atEvery n xs ++ if (xs.length + 1) % n = 0 then [x] else [] := by
  rw [atEvery, fromHistory_concat]

/-- There is one element of every `n`. -/
theorem length_atEvery {α : Type} (n : ℕ) (xs : List α) :
    (atEvery n xs).length = xs.length / n := by
  induction xs using List.reverseRecOn with
  | nil => simp [atEvery, fromHistory]
  | append_singleton xs x ih =>
      rw [atEvery_concat, List.length_append, ih, List.length_append, List.length_singleton,
        Nat.succ_div]
      simp only [Nat.dvd_iff_mod_eq_zero]
      split_ifs
      · rfl
      · rfl

/-- The message that the answers of a group are sent as. -/
def replyFrames (r : ConnectionId × List ℤ) : List Frame :=
  wire r.1.connection_ids_ (stringToMessage (intToString r.2.sum))

namespace Collector

variable {c : Collector} {cid : ConnectionId} {n : ℕ} {timeouts : List ConnectionId}

/-- The answers that have not been sent. -/
def pending (c : Collector) : List ℤ :=
  c.groups_.flatMap Prod.snd

/-- There is one group at most, and every answer is in one place. -/
structure Balanced (c : Collector) : Prop where
  one : c.groups_.length ≤ 1
  conserved : c.results.map Prod.snd = c.replies.flatMap Prod.snd ++ c.pending
  short : ∀ x ∈ c.results, 0 ≤ x.2 ∧ x.2 < 2 ^ 29
  atMost : ∀ r ∈ c.replies, r.2.length ≤ kNumWorkers
  sent : c.out = c.replies.map replyFrames

/-- **The invariant** of the collector; `timeouts` are the connection ids that timers have
ended a group for. -/
structure Accounts (c : Collector) (timeouts : List ConnectionId) : Prop extends Balanced c where
  counts : c.counts_.map Prod.snd = oneCount kNumWorkers c.results.length
  pending_le : c.pending.length ≤ c.results.length % kNumWorkers
  recipients : (c.replies.map Prod.fst).Perm
    (timeouts ++ atEvery kNumWorkers (c.results.map Prod.fst))

/-- At the beginning nothing has been received. -/
theorem Accounts.init : ({} : Collector).Accounts [] where
  one := by simp
  conserved := rfl
  short := by simp
  atMost := by simp
  sent := rfl
  counts := rfl
  pending_le := by simp [pending]
  recipients := List.Perm.nil

/-- The collector after the end of a group. -/
def ended (c : Collector) (cid : ConnectionId) : Collector :=
  { c with
    groups_ := []
    out := c.out ++ [replyFrames (cid, c.pending)]
    replies := c.replies ++ [(cid, c.pending)] }

/-- The answers of the open group are short. -/
theorem Balanced.pending_short (h : c.Balanced) : ∀ x ∈ c.pending, 0 ≤ x ∧ x < 2 ^ 29 := by
  intro x hx
  have hmem : x ∈ c.results.map Prod.snd := by
    rw [h.conserved]
    exact List.mem_append_right _ hx
  obtain ⟨r, hr, rfl⟩ := List.mem_map.mp hmem
  exact h.short r hr

/-- **The end of a group**: all answers that have not been sent are added up. With four of
them the sum is an `int`. -/
theorem endGroup_ok (h : c.Balanced) (hlen : c.pending.length ≤ kNumWorkers)
    (cid : ConnectionId) : c.endGroup cid = .ok (c.ended cid) := by
  have hshort := h.pending_short
  have hsum : c.pending.sum ≤ c.pending.length • (2 ^ 29 - 1 : ℤ) :=
    List.sum_le_card_nsmul _ _ fun x hx => Int.le_sub_one_of_lt (hshort x hx).2
  have hsmall : (0 : ℤ) + c.pending.sum < 2 ^ 31 := by
    simp only [kNumWorkers] at hlen
    simp only [nsmul_eq_mul] at hsum
    omega
  have hacc : accumulate c.pending = .ok c.pending.sum := by
    rw [accumulate, foldlM_intAdd (fun x hx => (hshort x hx).1) le_rfl hsmall, zero_add]
  simp only [endGroup, GroupBy.endCallBy_of_never ConnectionId.less_eq_false h.one, reduceGroup]
  rw [← pending, hacc]
  simp [bind, Except.bind, ended, replyFrames, sendEnvelopedMsg_eq]

/-- The end of a group keeps the accounts, if the group is not too long. -/
theorem Balanced.ended (h : c.Balanced) (hlen : c.pending.length ≤ kNumWorkers) :
    (c.ended cid).Balanced where
  one := by simp [Collector.ended]
  conserved := by simp [Collector.ended, pending, h.conserved]
  short := h.short
  atMost := by
    intro r hr
    rcases List.mem_append.mp hr with hr | hr
    · exact h.atMost r hr
    · rw [List.mem_singleton.mp hr]
      exact hlen
  sent := by simp [Collector.ended, h.sent]

/-- A timer ends a group. -/
theorem Accounts.ended (h : c.Accounts timeouts) (cid : ConnectionId) :
    c.endGroup cid = .ok (c.ended cid) ∧ (c.ended cid).Accounts (timeouts ++ [cid]) := by
  have hlen : c.pending.length ≤ kNumWorkers :=
    h.pending_le.trans (Nat.mod_lt _ (by decide)).le
  refine ⟨endGroup_ok h.toBalanced hlen cid, h.toBalanced.ended hlen, h.counts, ?_, ?_⟩
  · simp [Collector.ended, pending]
  · have hperm : (c.replies.map Prod.fst ++ [cid]).Perm
        (timeouts ++ atEvery kNumWorkers (c.results.map Prod.fst) ++ [cid]) :=
      h.recipients.append_right [cid]
    rw [Collector.ended, List.map_append]
    refine hperm.trans ?_
    rw [List.append_assoc, List.append_assoc]
    exact List.perm_append_comm.append_left timeouts

/-- The collector with one more answer in its group, before it is counted. -/
def pushed (c : Collector) (x : ConnectionId × ℤ) : Collector :=
  { c with
    groups_ := GroupBy.pushCallBy ConnectionId.less c.groups_ x
    results := c.results ++ [x] }

/-- An answer goes to the open group, whatever its connection id. -/
theorem pending_pushed (h : c.Balanced) (x : ConnectionId × ℤ) :
    (c.pushed x).pending = c.pending ++ [x.2] :=
  (GroupBy.pushCallBy_of_never ConnectionId.less_eq_false h.one x).2

/-- A short answer keeps the accounts. -/
theorem Balanced.pushed (h : c.Balanced) {x : ConnectionId × ℤ} (hx : 0 ≤ x.2 ∧ x.2 < 2 ^ 29) :
    (c.pushed x).Balanced where
  one := (GroupBy.pushCallBy_of_never ConnectionId.less_eq_false h.one x).1
  conserved := by
    rw [pending_pushed h, ← List.append_assoc]
    simp [Collector.pushed, h.conserved]
  short := by
    intro y hy
    rcases List.mem_append.mp hy with hy | hy
    · exact h.short y hy
    · rw [List.mem_singleton.mp hy]
      exact hx
  atMost := h.atMost
  sent := h.sent

/-- The collector with other counts. -/
def counted (counts_ : OrderedMap ConnectionId ℕ) (c : Collector) : Collector :=
  { c with counts_ := counts_ }

/-- The counts have no part in the accounts. -/
theorem Balanced.counted (h : c.Balanced) (counts : OrderedMap ConnectionId ℕ) :
    (c.counted counts).Balanced :=
  ⟨h.one, h.conserved, h.short, h.atMost, h.sent⟩

/-- An answer is read, added to the group and counted, and every fourth one ends it. -/
theorem receive_eq (h : c.Accounts timeouts) (cid : ConnectionId) (hn : n < 2 ^ 31) :
    c.receive ⟨cid, numberMessage n⟩ =
      (if (c.results.length + 1) % kNumWorkers = 0 then (c.pushed (cid, n)).endGroup cid
        else .ok (c.pushed (cid, n))).map
          (counted (clickDedupBy ConnectionId.less kNumWorkers c.counts_ cid).2) := by
  have hlast := (clickDedupBy_of_never ConnectionId.less_eq_false (by decide) h.counts cid).1
  simp only [receive, EnvelopedMessage.clone_eq, extractEnvmsgCid,
    makeGroupEvnmsg_numberMessage cid hn, bind, Except.bind, hlast, decide_eq_true_eq]
  by_cases hfourth : (c.results.length + 1) % kNumWorkers = 0
  · rw [if_pos hfourth, if_pos hfourth]
    rfl
  · rw [if_neg hfourth, if_neg hfourth]
    rfl

/-- **An answer** keeps the accounts. -/
theorem receive_ok (h : c.Accounts timeouts) (cid : ConnectionId) (hn : n < 2 ^ 29) :
    ∃ c', c.receive ⟨cid, numberMessage n⟩ = .ok c' ∧ c'.Accounts timeouts ∧
      c'.results = c.results ++ [(cid, (n : ℤ))] := by
  have hcounts := (clickDedupBy_of_never ConnectionId.less_eq_false (by decide) h.counts cid).2
  have hbal : (c.pushed (cid, n)).Balanced := h.toBalanced.pushed ⟨by omega, by omega⟩
  have hlen : (c.pushed (cid, n)).pending.length ≤ c.results.length % kNumWorkers + 1 := by
    rw [pending_pushed h.toBalanced, List.length_append, List.length_singleton]
    exact Nat.succ_le_succ h.pending_le
  rw [receive_eq h cid (by omega)]
  by_cases hfourth : (c.results.length + 1) % kNumWorkers = 0
  · have hfull : (c.pushed (cid, n)).pending.length ≤ kNumWorkers :=
      hlen.trans (Nat.mod_lt _ (by decide))
    rw [if_pos hfourth, endGroup_ok hbal hfull]
    refine ⟨_, rfl, ⟨(hbal.ended hfull).counted _, ?_, ?_, ?_⟩, rfl⟩
    · simpa [counted, Collector.ended, Collector.pushed] using hcounts
    · simp [counted, Collector.ended, pending]
    · simp only [counted, Collector.ended, Collector.pushed, List.map_append, List.map_cons,
        List.map_nil, atEvery_concat, List.length_map, if_pos hfourth, ← List.append_assoc]
      exact h.recipients.append_right [cid]
  · have hsucc : (c.results.length + 1) % kNumWorkers = c.results.length % kNumWorkers + 1 :=
      succ_mod_of_ne (by decide) fun heq => hfourth (succ_mod_of_eq heq)
    rw [if_neg hfourth]
    refine ⟨_, rfl, ⟨hbal.counted _, ?_, ?_, ?_⟩, rfl⟩
    · simpa [counted, Collector.pushed] using hcounts
    · have hresults : (c.pushed (cid, n)).results.length = c.results.length + 1 := by
        simp [Collector.pushed]
      change (c.pushed (cid, n)).pending.length ≤ (c.pushed (cid, n)).results.length % kNumWorkers
      rw [hresults, hsucc]
      exact hlen
    · simp only [counted, Collector.pushed, List.map_append, List.map_cons, List.map_nil,
        atEvery_concat, List.length_map, if_neg hfourth, List.append_nil]
      exact h.recipients

end Collector

/-! ### The program -/

/-- The handlers that are registered before `Run`, both of them a `SocketRecv`. -/
inductive ServerHandler
  | fromWorkers
  | in_
  deriving DecidableEq, Repr

/-- They poll the sink and the router. -/
def serverHandler : EventHandler ServerHandler where
  isOneOff _ := false
  getPollitem
    | .fromWorkers => ⟨1, 0, zmqPollin, 0⟩
    | .in_ => ⟨2, 0, zmqPollin, 0⟩

/-- The main thread, the workers, and the messages on the sockets between them. -/
structure ExampleServer where
  /-- `driver` and `timer`. -/
  timed : TimedDriver ServerHandler Unit ConnectionId
  /-- The messages that have arrived at the router and not been received. -/
  router : List (List Frame) := []
  /-- The messages on their way to the workers. -/
  source : List (List Frame) := []
  /-- The workers that have received a message and not answered it. -/
  working : List (Fin kNumWorkers × EnvelopedMessage) := []
  /-- The messages on their way from the workers. -/
  sink : List (List Frame) := []
  collector : Collector := {}
  failure : Option ServerFailure := none
  /-- All requests that have arrived. -/
  arrivals : List EnvelopedMessage := []
  /-- The requests received from the router. -/
  requests : List EnvelopedMessage := []
  /-- The messages that the workers have answered. -/
  answered : List (Fin kNumWorkers × EnvelopedMessage) := []

/-- A step: a request arrives; the main thread polls, goes on in its driver, where `n` is the
message that it receives from the sink if it does, or returns from a handler; worker `i`
receives the message `n` on its way to the workers, or the one that stands at position `n`
of those at work answers. -/
inductive ExampleAction
  | arrive (env : EnvelopedMessage)
  | poll (revents : List (BitVec 16))
  | turn (n : ℕ)
  | handlerReturns
  | recv (i : Fin kNumWorkers) (n : ℕ)
  | answer (n : ℕ)
  deriving DecidableEq, Repr

namespace ExampleServer

variable (timerfd : Unit → ℕ → ℤ)

/-- The program goes on with what a call has returned, or ends. -/
def orFail (s : ExampleServer) (r : Except ServerFailure ExampleServer) : ExampleServer :=
  match r with
  | .ok s' => s'
  | .error e => { s with failure := some e }

@[simp] theorem orFail_map_ok {α : Type} (s : ExampleServer) (f : α → ExampleServer) (x : α) :
    s.orFail ((Except.ok x).map f) = f x := rfl

/-- The `Run` of `from_workers`. -/
def fromWorkers (s : ExampleServer) (n : ℕ) : Option ExampleServer :=
  match s.sink[n]? with
  | none => none
  | some frames =>
      match recvEnvelopedMsg frames with
      | .error _ => none
      | .ok (env, _) =>
          some (s.orFail ((s.collector.receive env).map fun collector =>
            { s with sink := s.sink.eraseIdx n, collector := collector }))

/-- The `Run` of `in`: the timer is started, and the request is sent to the workers. -/
def in_ (s : ExampleServer) : Option ExampleServer :=
  match s.router with
  | [] => none
  | frames :: router =>
      match recvEnvelopedMsg frames with
      | .error _ => none
      | .ok (env, _) =>
          some { s with
            router := router
            timed := s.timed.push serverHandler timerfd () (extractEnvmsgCid env.clone)
            source := s.source ++ List.replicate kNumWorkers (sendEnvelopedMsg env.clone [])
            requests := s.requests ++ [env] }

/-- What is downstream of the timer, when the handler with a number pushes its value. -/
def expired (s : ExampleServer) (k : ℕ) : Option ExampleServer :=
  match (s.timed.timers ()).created[k]? with
  | none => some s
  | some me =>
      some (s.orFail ((s.collector.endGroup me.x_).map fun collector =>
        { s with collector := collector }))

/-- The driver has turned to `t`, which may be in the `Run` of a handler. -/
def turned (s : ExampleServer) (n : ℕ) (t : TimedDriver ServerHandler Unit ConnectionId) :
    Option ExampleServer :=
  match t.driver.runningHandler with
  | none => some { s with timed := t }
  | some (.other .fromWorkers) => { s with timed := t }.fromWorkers n
  | some (.other .in_) => { s with timed := t }.in_ timerfd
  | some (.timer _ k) => { s with timed := t }.expired k

/-- `recv_enveloped_msg` of worker `i`, which works on one message at a time. -/
def recv (s : ExampleServer) (i : Fin kNumWorkers) (n : ℕ) : Option ExampleServer :=
  if i ∈ s.working.map Prod.fst then none
  else
    match s.source[n]? with
    | none => none
    | some frames =>
        match recvEnvelopedMsg frames with
        | .error _ => none
        | .ok (env, _) =>
            some { s with source := s.source.eraseIdx n, working := s.working ++ [(i, env)] }

/-- A worker that has slept long enough sends its answer. -/
def answer (s : ExampleServer) (n : ℕ) : Option ExampleServer :=
  match s.working[n]? with
  | none => none
  | some a =>
      some (s.orFail ((lengthPlusI a.1 a.2).map fun env' =>
        { s with
          working := s.working.eraseIdx n
          sink := s.sink ++ [sendEnvelopedMsg env' []]
          answered := s.answered ++ [a] }))

/-- The driver and the timer when `Run` is called. -/
def start : TimedDriver ServerHandler Unit ConnectionId :=
  { driver :=
      { ((({} : Driver _).registerEventHandler (timedHandler serverHandler timerfd)
          (.other .fromWorkers)).registerEventHandler (timedHandler serverHandler timerfd)
            (.other .in_)) with
        phase := .head } }

end ExampleServer

/-- The machine of the program, from the call of `Run` on. -/
def exampleServer (timerfd : Unit → ℕ → ℤ) : Machine ExampleServer ExampleAction where
  init := { timed := ExampleServer.start timerfd }
  step s a :=
    if s.failure.isSome then none
    else
      match a with
      | .arrive env =>
          some { s with
            router := s.router ++ [wire env.cid.connection_ids_ env.msg]
            arrivals := s.arrivals ++ [env] }
      | .poll revents =>
          ((timedDriver serverHandler timerfd).step s.timed (.poll revents)).map
            fun t => { s with timed := t }
      | .turn n =>
          ((timedDriver serverHandler timerfd).step s.timed .turn).bind (s.turned timerfd n)
      | .handlerReturns =>
          ((timedDriver serverHandler timerfd).step s.timed .handlerReturns).map
            fun t => { s with timed := t }
      | .recv i n => s.recv i n
      | .answer n => s.answer n

/-! ### What timers have delivered -/

section Deliveries

variable {O K V : Type} {other : EventHandler O} {timerfd : K → ℕ → ℤ} [DecidableEq O]
  [DecidableEq K] {s t : TimedDriver O K V} {k : K}

/-- The handlers of a timer that have delivered their value, with the value, in order. -/
def numberedDeliveries (k : K) (log : List (TimerEvent K V)) : List (ℕ × V) :=
  log.filterMap fun
    | .delivered j n x => if j = k then some (n, x) else none
    | _ => none

/-- The values that a timer has delivered, in order. -/
def deliveries (k : K) (log : List (TimerEvent K V)) : List V :=
  (numberedDeliveries k log).map Prod.snd

/-- The deliveries with their timers are those of the log. -/
theorem mem_numberedDeliveries {n : ℕ} {x : V} {log : List (TimerEvent K V)} :
    (n, x) ∈ numberedDeliveries k log ↔ .delivered k n x ∈ log := by
  rw [numberedDeliveries, List.mem_filterMap]
  constructor
  · rintro ⟨e, he, hx⟩
    cases e with
    | delivered j m y =>
        obtain ⟨rfl, rfl, rfl⟩ : j = k ∧ m = n ∧ y = x := by simpa using hx
        exact he
    | pushed j y => cases hx
    | freed j m => cases hx
  · intro h
    exact ⟨_, h, by simp⟩

/-- One more event adds its delivery, if it is one. -/
theorem numberedDeliveries_concat (k : K) (log : List (TimerEvent K V)) (e : TimerEvent K V) :
    numberedDeliveries k (log ++ [e]) = numberedDeliveries k log ++
      match e with
      | .delivered j n x => if j = k then [(n, x)] else []
      | _ => [] := by
  rw [numberedDeliveries, List.filterMap_append, ← numberedDeliveries]
  cases e with
  | delivered j n x =>
      by_cases hj : j = k
      · simp [hj]
      · simp [hj]
  | pushed j x => rfl
  | freed j n => rfl

/-- A value that has been pushed keeps its number. -/
theorem getElem?_pushes_concat {log : List (TimerEvent K V)} {n : ℕ} {x : V}
    (h : (pushes k log)[n]? = some x) (e : TimerEvent K V) :
    (pushes k (log ++ [e]))[n]? = some x := by
  have hlt := (List.getElem?_eq_some_iff.mp h).1
  rw [pushes, List.filterMap_append, ← pushes, List.getElem?_append_left hlt, h]

/-- No handler delivers twice, and each delivers the value it was created for. -/
theorem numberedDeliveries_of_first {log : List (TimerEvent K V)}
    (h : EachAfter DeliversFirst log) (k : K) :
    ((numberedDeliveries k log).map Prod.fst).Nodup ∧
      ∀ d ∈ numberedDeliveries k log, (pushes k log)[d.1]? = some d.2 := by
  induction log using List.reverseRecOn with
  | nil => simp [numberedDeliveries]
  | append_singleton log e ih =>
      obtain ⟨hlog, he⟩ := eachAfter_append.mp h
      obtain ⟨hnodup, hvalues⟩ := ih hlog
      have hkept : ∀ d ∈ numberedDeliveries k log,
          (pushes k (log ++ [e]))[d.1]? = some d.2 :=
        fun d hd => getElem?_pushes_concat (hvalues d hd) e
      rw [numberedDeliveries_concat]
      cases e with
      | delivered j n x =>
          by_cases hj : j = k
          · subst hj
            obtain ⟨hx, hnew, -⟩ := he
            simp only [if_pos, List.map_append, List.map_cons, List.map_nil]
            refine ⟨?_, ?_⟩
            · rw [List.nodup_append_comm, List.singleton_append, List.nodup_cons]
              refine ⟨fun hn => ?_, hnodup⟩
              obtain ⟨d, hd, rfl⟩ := List.mem_map.mp hn
              exact hnew d.2 (mem_numberedDeliveries.mp hd)
            · intro d hd
              rcases List.mem_append.mp hd with hd | hd
              · exact hkept d hd
              · rw [List.mem_singleton.mp hd]
                exact getElem?_pushes_concat hx _
          · simp only [if_neg hj, List.append_nil]
            exact ⟨hnodup, hkept⟩
      | pushed j x =>
          simp only [List.append_nil]
          exact ⟨hnodup, hkept⟩
      | freed j n =>
          simp only [List.append_nil]
          exact ⟨hnodup, hkept⟩

/-- **With no handler in its map**, a timer has delivered what was pushed into it. -/
theorem TimedInv.deliveries_perm (hinv : TimedInv other timerfd s)
    (hnone : (s.timers k).timer_event_handlers_ = []) :
    (deliveries k s.log).Perm (pushes k s.log) := by
  obtain ⟨hnodup, hvalues⟩ := numberedDeliveries_of_first hinv.first k
  have hlen : (pushes k s.log).length = (s.timers k).created.length := by
    rw [hinv.values, List.length_map]
  have hall : ∀ n, n ∈ (numberedDeliveries k s.log).map Prod.fst ↔
      n ∈ List.range (pushes k s.log).length := by
    intro n
    rw [List.mem_range, hlen, ← (hinv.timers k).registered]
    constructor
    · intro hn
      obtain ⟨d, hd, rfl⟩ := List.mem_map.mp hn
      exact hinv.ran_registered ((hinv.delivered_iff k d.1).mp
        ⟨d.2, mem_numberedDeliveries.mp hd⟩)
    · intro hreg
      have hran : TimedHandler.timer k n ∈ handlersRun s.driver.trace := by
        by_contra hnot
        have hentry := ((hinv.timers k).entries _).mpr ⟨n, .inl ⟨hreg, hnot⟩, rfl⟩
        rw [hnone] at hentry
        cases hentry
      obtain ⟨x, hx⟩ := (hinv.delivered_iff k n).mpr hran
      exact List.mem_map_of_mem (mem_numberedDeliveries.mpr hx)
  have hperm : ((numberedDeliveries k s.log).map Prod.fst).Perm
      (List.range (pushes k s.log).length) :=
    (List.perm_ext_iff_of_nodup hnodup List.nodup_range).mpr hall
  -- Both sides are what the numbers stand for.
  have hdelivered : (deliveries k s.log).map some =
      ((numberedDeliveries k s.log).map Prod.fst).map fun n => (pushes k s.log)[n]? := by
    rw [deliveries, List.map_map, List.map_map]
    exact List.map_congr_left fun d hd => (hvalues d hd).symm
  have hpushed : (pushes k s.log).map some =
      (List.range (pushes k s.log).length).map fun n => (pushes k s.log)[n]? := by
    refine List.ext_getElem (by simp) fun n hn _ => ?_
    have hlt : n < (pushes k s.log).length := by simpa using hn
    simp [hlt]
  refine (List.map_perm_map_iff (Option.some_injective V)).mp ?_
  rw [hdelivered, hpushed]
  exact hperm.map _

/-- A delivery is one. -/
theorem deliveries_delivered (k : K) (log : List (TimerEvent K V)) (n : ℕ) (x : V) :
    deliveries k (log ++ [.delivered k n x]) = deliveries k log ++ [x] := by
  simp [deliveries, numberedDeliveries_concat]

/-- A push into the timer is none. -/
theorem deliveries_pushed (k j : K) (log : List (TimerEvent K V)) (x : V) :
    deliveries k (log ++ [.pushed j x]) = deliveries k log := by
  simp [deliveries, numberedDeliveries_concat]

/-- Nor is the end of a timer. -/
theorem deliveries_freed (k j : K) (log : List (TimerEvent K V)) (n : ℕ) :
    deliveries k (log ++ [.freed j n]) = deliveries k log := by
  simp [deliveries, numberedDeliveries_concat]

/-- A push into the timer is one. -/
theorem pushes_pushed (k : K) (log : List (TimerEvent K V)) (x : V) :
    pushes k (log ++ [.pushed k x]) = pushes k log ++ [x] := by
  simp [pushes]

/-- A delivery is none. -/
theorem pushes_delivered (k j : K) (log : List (TimerEvent K V)) (n : ℕ) (x : V) :
    pushes k (log ++ [.delivered j n x]) = pushes k log := by
  simp [pushes]

/-- Nor is the end of a timer. -/
theorem pushes_freed (k j : K) (log : List (TimerEvent K V)) (n : ℕ) :
    pushes k (log ++ [.freed j n]) = pushes k log := by
  simp [pushes]

/-- A turn of the driver runs no timer, or one that delivers its value. -/
theorem TimedInv.step_turn (hinv : TimedInv other timerfd s)
    (ht : (timedDriver other timerfd).step s .turn = some t) :
    ((∀ k n, t.driver.runningHandler ≠ some (.timer k n)) ∧ t.log = s.log) ∨
      ∃ k n me, t.driver.runningHandler = some (.timer k n) ∧
        (t.timers k).created[n]? = some me ∧ t.log = s.log ++ [.delivered k n me.x_] := by
  simp only [timedDriver] at ht
  split_ifs at ht
  obtain ⟨d, hd, rfl⟩ := Option.map_eq_some_iff.mp ht
  have hdefined := (hinv.turned hd).defined
  rw [TimedDriver.turned] at hdefined ⊢
  split at hdefined
  · rename_i k n hrunning
    refine .inr ⟨k, n, ?_⟩
    rw [TimedDriver.beginRun] at hdefined ⊢
    split at hdefined
    · rename_i me hme
      exact ⟨me, hrunning, hme, rfl⟩
    · cases hdefined
  · rename_i hnot
    exact .inl ⟨hnot, rfl⟩

/-- A poll logs nothing. -/
theorem timedDriver_step_poll {revents : List (BitVec 16)}
    (ht : (timedDriver other timerfd).step s (.poll revents) = some t) : t.log = s.log := by
  simp only [timedDriver] at ht
  split_ifs at ht
  obtain ⟨d, -, rfl⟩ := Option.map_eq_some_iff.mp ht
  rfl

/-- When a handler returns, at most its own release is logged. -/
theorem TimedInv.step_handlerReturns (hinv : TimedInv other timerfd s)
    (ht : (timedDriver other timerfd).step s .handlerReturns = some t) :
    t.log = s.log ∨ ∃ k n, t.log = s.log ++ [.freed k n] := by
  simp only [timedDriver] at ht
  split_ifs at ht
  obtain ⟨d, hd, rfl⟩ := Option.map_eq_some_iff.mp ht
  rw [TimedDriver.returned]
  split
  · rename_i k n hrunning
    rw [hinv.endRun_eq hrunning]
    exact .inr ⟨k, n, rfl⟩
  · exact .inl rfl

/-- While a handler runs, a value may be pushed into a timer. -/
theorem TimedInv.step_push (hinv : TimedInv other timerfd s) {h : TimedHandler O K}
    (hrunning : s.driver.runningHandler = some h) (k : K) (x : V) :
    (timedDriver other timerfd).step s (.push k x) = some (s.push other timerfd k x) ∧
      (s.push other timerfd k x).log = s.log ++ [.pushed k x] := by
  refine ⟨?_, by rw [hinv.push_eq]⟩
  cases hphase : s.driver.phase with
  | running l b => simp [timedDriver, hinv.defined, hphase]
  | setup => simp [Driver.runningHandler, hphase] at hrunning
  | head => simp [Driver.runningHandler, hphase] at hrunning
  | loop l => simp [Driver.runningHandler, hphase] at hrunning
  | failed => simp [Driver.runningHandler, hphase] at hrunning

end Deliveries

/-! ### The invariant -/

/-- The frames of a message. -/
def EnvelopedMessage.frames (env : EnvelopedMessage) : List Frame :=
  wire env.cid.connection_ids_ env.msg

/-- The frames of a message are received as the message. -/
theorem recvEnvelopedMsg_frames (env : EnvelopedMessage) :
    recvEnvelopedMsg env.frames = .ok (env, []) := by
  have hwire := recvEnvelopedMsg_wire env.cid.connection_ids_ env.msg []
  rwa [List.append_nil] at hwire

/-- A message is sent as its frames. -/
theorem sendEnvelopedMsg_frames (env : EnvelopedMessage) :
    sendEnvelopedMsg env [] = env.frames := by
  rw [sendEnvelopedMsg_eq, List.nil_append]
  rfl

/-- What a worker answers to a message, with the connection id. -/
def answerTo (a : Fin kNumWorkers × EnvelopedMessage) : ConnectionId × ℕ :=
  (a.2.cid, a.2.msg.length + a.1)

/-- An answer as the message it is sent as. -/
def answerMessage (x : ConnectionId × ℕ) : EnvelopedMessage :=
  ⟨x.1, numberMessage x.2⟩

/-- An answer as it is received. -/
def answerResult (x : ConnectionId × ℕ) : ConnectionId × ℤ :=
  (x.1, (x.2 : ℤ))

/-- The requests that the results below are about: short ones, and less than `2 ^ 31`. -/
def Fits (s : ExampleServer) : ExampleAction → Prop
  | .arrive env => env.msg.length + kNumWorkers ≤ 2 ^ 29 ∧ s.arrivals.length + 1 < 2 ^ 31
  | _ => True

instance (s : ExampleServer) : (a : ExampleAction) → Decidable (Fits s a)
  | .arrive _ => inferInstanceAs (Decidable (_ ∧ _))
  | .poll _ | .turn _ | .handlerReturns | .recv _ _ | .answer _ => isTrue trivial

section Invariant

variable {timerfd : Unit → ℕ → ℤ} {s s' : ExampleServer}

/-- **The invariant**: a request is waiting at the router or has been received; each copy of
it is on its way to a worker, with a worker, or has been answered; and each answer is on its
way back or has been received. -/
structure ServerInv (timerfd : Unit → ℕ → ℤ) (s : ExampleServer) : Prop where
  timed : (timedDriver serverHandler timerfd).Reachable s.timed
  defined : s.failure = none
  short : ∀ env ∈ s.arrivals, env.msg.length + kNumWorkers ≤ 2 ^ 29
  few : s.arrivals.length < 2 ^ 31
  waiting : ∃ waiting, s.arrivals = s.requests ++ waiting ∧
    s.router = waiting.map EnvelopedMessage.frames
  started : pushes () s.timed.log = s.requests.map EnvelopedMessage.cid
  copies : ∃ queued, s.source = queued.map EnvelopedMessage.frames ∧
    (s.requests.flatMap (List.replicate kNumWorkers)).Perm
      (queued ++ s.working.map Prod.snd ++ s.answered.map Prod.snd)
  answers : ∃ returning : List (ConnectionId × ℕ),
    s.sink = returning.map (fun x => (answerMessage x).frames) ∧
    (s.answered.map (answerResult ∘ answerTo)).Perm
      (returning.map answerResult ++ s.collector.results)
  accounts : s.collector.Accounts (deliveries () s.timed.log)

/-- The server starts with a driver in a state that drivers reach. -/
theorem start_reachable (timerfd : Unit → ℕ → ℤ) :
    (timedDriver serverHandler timerfd).Reachable (ExampleServer.start timerfd) := by
  have hrun : (timedDriver serverHandler timerfd).run (timedDriver serverHandler timerfd).init
      [.register .fromWorkers, .register .in_, .callRun] =
        some (ExampleServer.start timerfd) := rfl
  exact Machine.reachable_of_run hrun

/-- The invariant holds at the start. -/
theorem ServerInv.init : ServerInv timerfd (exampleServer timerfd).init where
  timed := start_reachable timerfd
  defined := rfl
  short := by simp [exampleServer]
  few := by simp [exampleServer]
  waiting := ⟨[], rfl, rfl⟩
  started := rfl
  copies := ⟨[], rfl, List.Perm.nil⟩
  answers := ⟨[], rfl, List.Perm.nil⟩
  accounts := Collector.Accounts.init

/-- Less than `2 ^ 31` timers have been started. -/
theorem ServerInv.fewPushes (h : ServerInv timerfd s) : FewPushes s.timed.log := by
  intro k
  obtain ⟨waiting, harrivals, -⟩ := h.waiting
  have hlen := congrArg List.length harrivals
  have hfew := h.few
  rw [h.started, List.length_map]
  rw [List.length_append] at hlen
  omega

/-- The driver and its timer keep their own invariant. -/
theorem ServerInv.timedInv (h : ServerInv timerfd s) : TimedInv serverHandler timerfd s.timed :=
  timedInv_of_reachable h.timed h.fewPushes

/-- A request that has been received is short. -/
theorem ServerInv.request_short (h : ServerInv timerfd s) {env : EnvelopedMessage}
    (henv : env ∈ s.requests) : env.msg.length + kNumWorkers ≤ 2 ^ 29 := by
  obtain ⟨waiting, harrivals, -⟩ := h.waiting
  refine h.short env ?_
  rw [harrivals]
  exact List.mem_append_left _ henv

/-- And so is a copy of it, wherever that is. -/
theorem ServerInv.copy_short (h : ServerInv timerfd s) {queued : List EnvelopedMessage}
    (hperm : (s.requests.flatMap (List.replicate kNumWorkers)).Perm
      (queued ++ s.working.map Prod.snd ++ s.answered.map Prod.snd)) {env : EnvelopedMessage}
    (henv : env ∈ queued ++ s.working.map Prod.snd ++ s.answered.map Prod.snd) :
    env.msg.length + kNumWorkers ≤ 2 ^ 29 := by
  obtain ⟨request, hrequest, hcopy⟩ := List.mem_flatMap.mp (hperm.mem_iff.mpr henv)
  rw [List.eq_of_mem_replicate hcopy]
  exact h.request_short hrequest

/-- So an answer on its way back is a number that is small enough. -/
theorem ServerInv.answer_short (h : ServerInv timerfd s) {returning : List (ConnectionId × ℕ)}
    (hperm : (s.answered.map (answerResult ∘ answerTo)).Perm
      (returning.map answerResult ++ s.collector.results)) {x : ConnectionId × ℕ}
    (hx : x ∈ returning) : x.2 < 2 ^ 29 := by
  have hmem : answerResult x ∈ s.answered.map (answerResult ∘ answerTo) :=
    hperm.mem_iff.mpr (List.mem_append_left _ (List.mem_map_of_mem hx))
  obtain ⟨a, ha, heq⟩ := List.mem_map.mp hmem
  have hval : (answerTo a).2 = x.2 := Int.ofNat_inj.mp (Prod.ext_iff.mp heq).2
  obtain ⟨queued, -, hcopies⟩ := h.copies
  have hshort := h.copy_short hcopies (List.mem_append_right _ (List.mem_map_of_mem ha))
  have hworker := a.1.isLt
  simp only [answerTo] at hval
  omega

/-- The log of the timer has grown by something that is no delivery and no push. -/
theorem ServerInv.drive (h : ServerInv timerfd s)
    {t : TimedDriver ServerHandler Unit ConnectionId}
    (ht : (timedDriver serverHandler timerfd).Reachable t)
    (hpushes : pushes () t.log = pushes () s.timed.log)
    (hdeliveries : deliveries () t.log = deliveries () s.timed.log) :
    ServerInv timerfd { s with timed := t } where
  timed := ht
  defined := h.defined
  short := h.short
  few := h.few
  waiting := h.waiting
  started := hpushes.trans h.started
  copies := h.copies
  answers := h.answers
  accounts := by
    rw [hdeliveries]
    exact h.accounts

/-! ### Steps -/

/-- An element taken out of a list and put in front. -/
theorem perm_cons_eraseIdx {α : Type} {xs : List α} {n : ℕ} {x : α} (h : xs[n]? = some x) :
    (x :: xs.eraseIdx n).Perm xs := by
  obtain ⟨hn, rfl⟩ := List.getElem?_eq_some_iff.mp h
  exact List.getElem_cons_eraseIdx_perm hn

/-- An element is moved from one list to the end of the next one. -/
theorem perm_move {α : Type} {xs xs' ys : List α} {x : α} (h : (x :: xs').Perm xs) :
    (xs ++ ys).Perm (xs' ++ (ys ++ [x])) := by
  refine (h.symm.append_right ys).trans ?_
  rw [← List.append_assoc, List.cons_append]
  exact (List.perm_append_singleton x _).symm

/-- A request arrives. -/
theorem ServerInv.arrive (h : ServerInv timerfd s) {env : EnvelopedMessage}
    (hfits : Fits s (.arrive env)) :
    ServerInv timerfd { s with
      router := s.router ++ [env.frames]
      arrivals := s.arrivals ++ [env] } where
  timed := h.timed
  defined := h.defined
  short := by
    intro e he
    rcases List.mem_append.mp he with he | he
    · exact h.short e he
    · rw [List.mem_singleton.mp he]
      exact hfits.1
  few := by
    rw [List.length_append, List.length_singleton]
    exact hfits.2
  waiting := by
    obtain ⟨waiting, harrivals, hrouter⟩ := h.waiting
    exact ⟨waiting ++ [env], by simp [harrivals], by simp [hrouter]⟩
  started := h.started
  copies := h.copies
  answers := h.answers
  accounts := h.accounts

/-- The main thread receives an answer. -/
theorem ServerInv.fromWorkers (h : ServerInv timerfd s) {n : ℕ}
    (hs : s.fromWorkers n = some s') : ServerInv timerfd s' := by
  obtain ⟨returning, hsink, hperm⟩ := h.answers
  rw [ExampleServer.fromWorkers] at hs
  split at hs
  · cases hs
  · rename_i frames hget
    rw [hsink, List.getElem?_map] at hget
    obtain ⟨x, hx, rfl⟩ := Option.map_eq_some_iff.mp hget
    have hshort : x.2 < 2 ^ 29 := h.answer_short hperm (List.mem_of_getElem? hx)
    obtain ⟨c, hreceive, haccounts, hresults⟩ := Collector.receive_ok h.accounts x.1 hshort
    simp only [recvEnvelopedMsg_frames, answerMessage, hreceive, ExampleServer.orFail_map_ok] at hs
    obtain rfl := Option.some.inj hs
    refine { h with
      answers := ⟨returning.eraseIdx n, ?_, ?_⟩
      accounts := haccounts }
    · simp only [hsink, List.eraseIdx_map]
    · rw [hresults]
      exact hperm.trans (perm_move ((perm_cons_eraseIdx hx).map answerResult))

/-- The main thread receives a request, starts a timer, and sends copies to the workers. -/
theorem ServerInv.in_ (h : ServerInv timerfd s) {o : TimedHandler ServerHandler Unit}
    (hrunning : s.timed.driver.runningHandler = some o) (hs : s.in_ timerfd = some s') :
    ServerInv timerfd s' := by
  obtain ⟨waiting, harrivals, hrouter⟩ := h.waiting
  obtain ⟨queued, hsource, hperm⟩ := h.copies
  rw [ExampleServer.in_, hrouter] at hs
  cases waiting with
  | nil => cases hs
  | cons env waiting =>
      simp only [List.map_cons, recvEnvelopedMsg_frames, EnvelopedMessage.clone_eq,
        sendEnvelopedMsg_frames, extractEnvmsgCid] at hs
      obtain rfl := Option.some.inj hs
      obtain ⟨hpush, hlog⟩ := h.timedInv.step_push hrunning () env.cid
      refine { h with
        timed := h.timed.step hpush
        waiting := ⟨waiting, by simp [harrivals], rfl⟩
        started := ?_
        copies := ⟨queued ++ List.replicate kNumWorkers env, by simp [hsource], ?_⟩
        accounts := ?_ }
      · simp only [hlog, pushes_pushed, h.started, List.map_append, List.map_cons, List.map_nil]
      · rw [List.flatMap_append, List.flatMap_singleton]
        refine (hperm.append_right _).trans ?_
        simp only [List.append_assoc]
        refine List.Perm.append_left queued ?_
        rw [← List.append_assoc]
        exact List.perm_append_comm
      · simp only [hlog, deliveries_pushed]
        exact h.accounts

/-- A worker receives a copy. -/
theorem ServerInv.recv (h : ServerInv timerfd s) {i : Fin kNumWorkers} {n : ℕ}
    (hs : s.recv i n = some s') : ServerInv timerfd s' := by
  obtain ⟨queued, hsource, hperm⟩ := h.copies
  rw [ExampleServer.recv, hsource, List.getElem?_map] at hs
  split_ifs at hs
  cases hget : queued[n]? with
  | none =>
      rw [hget] at hs
      cases hs
  | some env =>
      simp only [hget, Option.map_some, recvEnvelopedMsg_frames] at hs
      obtain rfl := Option.some.inj hs
      refine { h with copies := ⟨queued.eraseIdx n, by simp only [List.eraseIdx_map], ?_⟩ }
      rw [List.map_append]
      exact hperm.trans ((perm_move (perm_cons_eraseIdx hget)).append_right _ |>.trans
        (by simp))

/-- A worker answers. -/
theorem ServerInv.answer (h : ServerInv timerfd s) {n : ℕ} (hs : s.answer n = some s') :
    ServerInv timerfd s' := by
  obtain ⟨queued, hsource, hcopies⟩ := h.copies
  obtain ⟨returning, hsink, hanswers⟩ := h.answers
  rw [ExampleServer.answer] at hs
  split at hs
  · cases hs
  · rename_i a hget
    have hmem : a.2 ∈ s.working.map Prod.snd := List.mem_map_of_mem (List.mem_of_getElem? hget)
    have hshort := h.copy_short hcopies
      (List.mem_append_left _ (List.mem_append_right queued hmem))
    have hworker := a.1.isLt
    have hcall : lengthPlusI a.1 a.2 = .ok (answerMessage (answerTo a)) :=
      lengthPlusI_ok (by omega)
    rw [hcall, ExampleServer.orFail_map_ok] at hs
    obtain rfl := Option.some.inj hs
    have hmoved : (s.working.map Prod.snd ++ s.answered.map Prod.snd).Perm
        ((s.working.eraseIdx n).map Prod.snd ++ (s.answered.map Prod.snd ++ [a.2])) :=
      perm_move ((perm_cons_eraseIdx hget).map Prod.snd)
    refine { h with
      copies := ⟨queued, hsource, ?_⟩
      answers := ⟨returning ++ [answerTo a], ?_, ?_⟩ }
    · rw [List.append_assoc] at hcopies
      rw [List.map_append, List.append_assoc]
      exact hcopies.trans (hmoved.append_left queued)
    · rw [hsink, sendEnvelopedMsg_frames, List.map_append]
      rfl
    · rw [List.map_append, List.map_append, List.append_assoc]
      refine (hanswers.append_right _).trans ?_
      rw [List.append_assoc]
      exact List.perm_append_comm.append_left _

/-- A timer has expired, and its value ends a group. -/
theorem ServerInv.expired (h : ServerInv timerfd s)
    {t : TimedDriver ServerHandler Unit ConnectionId} {k : ℕ} {me : TimerEventHandler ConnectionId}
    (ht : (timedDriver serverHandler timerfd).Reachable t)
    (hme : (t.timers ()).created[k]? = some me)
    (hlog : t.log = s.timed.log ++ [.delivered () k me.x_])
    (hs : ({ s with timed := t } : ExampleServer).expired k = some s') :
    ServerInv timerfd s' := by
  obtain ⟨hcall, haccounts⟩ := h.accounts.ended me.x_
  simp only [ExampleServer.expired, hme, hcall, ExampleServer.orFail_map_ok] at hs
  obtain rfl := Option.some.inj hs
  exact { h with
    timed := ht
    started := by
      simp only [hlog, pushes_delivered]
      exact h.started
    accounts := by
      simp only [hlog, deliveries_delivered]
      exact haccounts }

/-- The main thread goes on in its driver. -/
theorem ServerInv.turn (h : ServerInv timerfd s) {n : ℕ}
    {t : TimedDriver ServerHandler Unit ConnectionId}
    (ht : (timedDriver serverHandler timerfd).step s.timed .turn = some t)
    (hs : s.turned timerfd n t = some s') : ServerInv timerfd s' := by
  have hreach := h.timed.step ht
  rw [ExampleServer.turned] at hs
  obtain ⟨hnot, hlog⟩ | ⟨⟨⟩, k, me, hrunning, hme, hlog⟩ := h.timedInv.step_turn ht
  · have hdriven := h.drive hreach (by rw [hlog]) (by rw [hlog])
    split at hs
    · obtain rfl := Option.some.inj hs
      exact hdriven
    · exact hdriven.fromWorkers hs
    · rename_i hrunning
      exact hdriven.in_ hrunning hs
    · rename_i k hrunning
      exact absurd hrunning (hnot _ k)
  · rw [hrunning] at hs
    exact h.expired hreach hme hlog hs

/-- **One step** keeps the invariant. -/
theorem serverInv_step (h : ServerInv timerfd s) {a : ExampleAction} (hfits : Fits s a)
    (hs : (exampleServer timerfd).step s a = some s') : ServerInv timerfd s' := by
  have hgoes : ¬ s.failure.isSome = true := by simp [h.defined]
  simp only [exampleServer, if_neg hgoes] at hs
  cases a with
  | arrive env =>
      obtain rfl := Option.some.inj hs
      exact h.arrive hfits
  | poll revents =>
      obtain ⟨t, ht, rfl⟩ := Option.map_eq_some_iff.mp hs
      have hlog := timedDriver_step_poll ht
      exact h.drive (h.timed.step ht) (by rw [hlog]) (by rw [hlog])
  | turn n =>
      obtain ⟨t, ht, hs⟩ := Option.bind_eq_some_iff.mp hs
      exact h.turn ht hs
  | handlerReturns =>
      obtain ⟨t, ht, rfl⟩ := Option.map_eq_some_iff.mp hs
      obtain hlog | ⟨k, n, hlog⟩ := h.timedInv.step_handlerReturns ht
      · exact h.drive (h.timed.step ht) (by rw [hlog]) (by rw [hlog])
      · exact h.drive (h.timed.step ht) (by rw [hlog, pushes_freed])
          (by rw [hlog, deliveries_freed])
  | recv i n => exact h.recv hs
  | answer n => exact h.answer hs

/-- **The invariant** holds in every run that fits. -/
theorem serverInv_of_reachable (h : (exampleServer timerfd).ReachableBy Fits s) :
    ServerInv timerfd s :=
  h.invariant ServerInv.init fun _ _ _ _ hinv hfits hs => serverInv_step hinv hfits hs

/-! ### The accounts of the program -/

/-- Nothing is waiting or on its way, no worker works, and no timer is running. -/
structure ExampleServer.Idle (s : ExampleServer) : Prop where
  router : s.router = []
  source : s.source = []
  working : s.working = []
  sink : s.sink = []
  timer : (s.timed.timers ()).timer_event_handlers_ = []

/-- Nothing is left to do where all queues are empty and no timer is set. -/
theorem ExampleServer.idle_iff : (s.router = [] ∧ s.source = [] ∧ s.working = [] ∧ s.sink = [] ∧
    (s.timed.timers ()).timer_event_handlers_ = []) ↔ s.Idle := by
  constructor
  · rintro ⟨hrouter, hsource, hworking, hsink, htimer⟩
    exact ⟨hrouter, hsource, hworking, hsink, htimer⟩
  · intro h
    exact ⟨h.router, h.source, h.working, h.sink, h.timer⟩

instance : Decidable s.Idle :=
  decidable_of_iff _ ExampleServer.idle_iff

/-- What is promised when nothing is left to do. -/
structure Settled (s : ExampleServer) : Prop where
  /-- Four workers have answered each request, and their answers have been received. -/
  answered : (s.answered.map Prod.snd).Perm (s.arrivals.flatMap (List.replicate kNumWorkers))
  received : s.collector.results.Perm (s.answered.map (answerResult ∘ answerTo))
  /-- Each of them is in one of the sums that have been sent. -/
  summed : s.collector.replies.flatMap Prod.snd = s.collector.results.map Prod.snd
  /-- There are twice as many of these as requests. -/
  twice : s.collector.replies.length = 2 * s.arrivals.length
  /-- A client has been sent at least as many as it has made requests. -/
  replied : ∀ cid, (s.arrivals.map EnvelopedMessage.cid).count cid ≤
    (s.collector.replies.map Prod.fst).count cid

/-- What is promised of the program in a state. -/
structure Accounted (s : ExampleServer) : Prop where
  /-- Nothing has overflown, nothing has been thrown, and no pointer has been misused. -/
  defined : s.failure = none ∧ s.timed.undefined = false
  /-- The answers received are those of workers to copies of requests, each at most once. -/
  copies : (s.answered.map Prod.snd).Subperm (s.arrivals.flatMap (List.replicate kNumWorkers))
  received : s.collector.results.Subperm (s.answered.map (answerResult ∘ answerTo))
  /-- In the order in which they were received, whichever clients they are for, they make up
  the groups that have been ended, and then the one that has not. -/
  conserved : s.collector.results.map Prod.snd =
    s.collector.replies.flatMap Prod.snd ++ s.collector.pending
  /-- No group has more than four of them. -/
  atMost : ∀ r ∈ s.collector.replies, r.2.length ≤ kNumWorkers
  /-- The sum of each group that has been ended has been sent. -/
  sent : s.collector.out = s.collector.replies.map replyFrames
  /-- It went to the client of a request whose timer has expired, or to the client of every
  fourth answer. -/
  recipients : (s.collector.replies.map Prod.fst).Perm
    (deliveries () s.timed.log ++ atEvery kNumWorkers (s.collector.results.map Prod.fst))
  settled : s.Idle → Settled s

/-- With nothing left to do, four times as many answers as requests have been received, so
that the last of them has ended its group. -/
theorem ServerInv.settled (h : ServerInv timerfd s) (hidle : s.Idle) : Settled s := by
  obtain ⟨waiting, harrivals, hrouter⟩ := h.waiting
  obtain ⟨queued, hsource, hcopies⟩ := h.copies
  obtain ⟨returning, hsink, hanswers⟩ := h.answers
  obtain rfl : waiting = [] := List.map_eq_nil_iff.mp (hrouter.symm.trans hidle.router)
  obtain rfl : queued = [] := List.map_eq_nil_iff.mp (hsource.symm.trans hidle.source)
  obtain rfl : returning = [] := List.map_eq_nil_iff.mp (hsink.symm.trans hidle.sink)
  rw [List.append_nil] at harrivals
  rw [← harrivals, hidle.working] at hcopies
  rw [List.map_nil, List.nil_append] at hanswers
  have hresults : s.collector.results.length = kNumWorkers * s.arrivals.length := by
    have hanswered : s.answered.length = s.collector.results.length := by
      simpa using hanswers.length_eq
    have hcopied : s.arrivals.length * kNumWorkers = s.answered.length := by
      simpa [List.length_flatMap] using hcopies.length_eq
    rw [← hanswered, ← hcopied, Nat.mul_comm]
  have hpending : s.collector.pending = [] := by
    have hle := h.accounts.pending_le
    rw [hresults, Nat.mul_mod_right] at hle
    exact List.length_eq_zero_iff.mp (Nat.le_zero.mp hle)
  have htimers : (deliveries () s.timed.log).Perm (s.arrivals.map EnvelopedMessage.cid) := by
    rw [harrivals, ← h.started]
    exact h.timedInv.deliveries_perm hidle.timer
  have hrecipients := h.accounts.recipients.trans (htimers.append_right _)
  refine ⟨hcopies.symm, hanswers.symm, ?_, ?_, fun cid => ?_⟩
  · rw [h.accounts.conserved, hpending, List.append_nil]
  · have hlen := hrecipients.length_eq
    rw [List.length_append, length_atEvery, List.length_map, List.length_map, List.length_map,
      hresults, Nat.mul_div_cancel_left _ (by decide)] at hlen
    omega
  · rw [hrecipients.count_eq, List.count_append]
    exact Nat.le_add_right _ _

/-- **The accounts of the example server**, in every run with short requests and less than
`2 ^ 31` of them: whenever requests arrive and timers expire, and whichever worker takes
which message. -/
theorem exampleServer_accounts (h : (exampleServer timerfd).ReachableBy Fits s) :
    Accounted s := by
  have hinv := serverInv_of_reachable h
  obtain ⟨waiting, harrivals, -⟩ := hinv.waiting
  obtain ⟨queued, -, hcopies⟩ := hinv.copies
  obtain ⟨returning, -, hanswers⟩ := hinv.answers
  refine ⟨⟨hinv.defined, hinv.timedInv.defined⟩, ?_, ?_, hinv.accounts.conserved,
    hinv.accounts.atMost, hinv.accounts.sent, hinv.accounts.recipients, hinv.settled⟩
  · have hrequests : (s.answered.map Prod.snd).Subperm
        (s.requests.flatMap (List.replicate kNumWorkers)) :=
      (List.sublist_append_right _ _).subperm.trans hcopies.symm.subperm
    rw [harrivals, List.flatMap_append]
    exact hrequests.trans (List.sublist_append_left _ _).subperm
  · exact (List.sublist_append_right _ _).subperm.trans hanswers.symm.subperm

end Invariant

/-- The driver polls, and runs the handler at the given position only. -/
def pollFor (handlers position : ℕ) : List ExampleAction :=
  [.poll ((List.replicate handlers 0).set position zmqPollin)] ++
    List.replicate (position + 1) (.turn 0) ++ [.handlerReturns] ++
    List.replicate (handlers - position) (.turn 0)

/-- A request of two bytes from the client `0x01`. -/
def shortRequest : EnvelopedMessage :=
  ⟨⟨[[1]]⟩, [65, 65]⟩

/-- A request of five bytes from the client `0x02`. -/
def longRequest : EnvelopedMessage :=
  ⟨⟨[[2]]⟩, [66, 66, 66, 66, 66]⟩

/-- Two clients make a request each, and worker `3` takes a copy of the second one early. When
all answers have been received, the timers expire. -/
def twoClients : List ExampleAction :=
  [.arrive shortRequest, .arrive longRequest] ++ pollFor 2 1 ++ pollFor 3 2 ++
    [(0, 0), (1, 0), (2, 0), (3, 1), (0, 0), (1, 0), (2, 0), (3, 0)].flatMap
      (fun r => [.recv r.1 r.2, .answer 0]) ++
    (List.replicate 8 (pollFor 4 2)).flatten ++ pollFor 4 0 ++ pollFor 3 0

/-- In the run `twoClients` nothing is left to do. The second client has been sent both sums
of four answers, three of which are answers to the request of the first client in each; the
first client has been sent an empty sum. -/
theorem exampleServer_accounts_two_clients : ∃ s,
    (exampleServer fun _ n => n).runBy Fits (exampleServer fun _ n => n).init twoClients =
        some s ∧
      s.collector.replies = [(⟨[[2]]⟩, [2, 3, 4, 8]), (⟨[[2]]⟩, [2, 6, 7, 8]), (⟨[[2]]⟩, []),
        (⟨[[1]]⟩, [])] ∧ Accounted s ∧ Settled s := by
  have hrun : ((exampleServer fun _ n => n).runBy Fits (exampleServer fun _ n => n).init
      twoClients).map (fun s => (s.collector.replies, decide s.Idle)) =
      some ([(⟨[[2]]⟩, [2, 3, 4, 8]), (⟨[[2]]⟩, [2, 6, 7, 8]), (⟨[[2]]⟩, []), (⟨[[1]]⟩, [])],
        true) := by
    decide +kernel
  obtain ⟨s, hs, heq⟩ := Option.map_eq_some_iff.mp hrun
  obtain ⟨hreplies, hidle⟩ := Prod.ext_iff.mp heq
  have haccounted : Accounted s := exampleServer_accounts (Machine.ReachableBy.init.runBy hs)
  exact ⟨s, hs, hreplies, haccounted, haccounted.settled (of_decide_eq_true hidle)⟩

end LatticeFlow
