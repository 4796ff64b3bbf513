import Mathlib.Data.Multiset.Lattice
import LatticeFlow.Lib.Machine

/-!
# Replication by Gossip of Joined State

An abstract protocol over an arbitrary set of replicas and an arbitrary join semilattice
with a bottom. A replica accepts updates by joining them into its value, and publishes to
each of its peers one packet that lies between the accepted updates and its new value.
Packets are delivered once each, in any order and after any delay, and are joined into
the receiver's value. Received packets are not published again.

Nothing is lost under this protocol although a packet carries the joined value and not
the updates: what a replica accepted lies, at every moment and for every other replica,
below that replica's value joined with the packets still on their way to it from the
accepting one (`Replicas.Inv.covered`). When no packet is on its way all replicas hold
the join of everything accepted.

## Main results

* `Replicas.inv_of_reachable`: the invariant holds in every reachable state.
* `Replicas.Inv.converged`: with no packet in flight every value is the join of the log.
-/

universe u v w x

/-- The join of a list, `⊥` for the empty one. -/
def joinAll {A : Type v} [SemilatticeSup A] [OrderBot A] (l : List A) : A :=
  (l : Multiset A).sup

section joinAll

variable {A : Type v} [SemilatticeSup A] [OrderBot A]

/-- The join of a list is below what all its elements are below. -/
theorem joinAll_le {l : List A} {a : A} : joinAll l ≤ a ↔ ∀ b ∈ l, b ≤ a :=
  Multiset.sup_le

/-- An element of a list is below the join. -/
theorem le_joinAll {l : List A} {a : A} (h : a ∈ l) : a ≤ joinAll l :=
  Multiset.le_sup h

@[simp] theorem joinAll_nil : joinAll ([] : List A) = ⊥ := rfl

@[simp] theorem joinAll_cons (a : A) (l : List A) : joinAll (a :: l) = a ⊔ joinAll l :=
  Multiset.sup_cons a l

/-- The join does not depend on order or multiplicity. -/
theorem joinAll_eq_of_mem {l l' : List A} (h : ∀ a, a ∈ l ↔ a ∈ l') :
    joinAll l = joinAll l' := by
  refine eq_of_forall_ge_iff fun z => ?_
  rw [joinAll_le, joinAll_le]
  exact forall_congr' fun a => by rw [h a]

/-- **A loop that joins.** If every turn of a loop joins something to the reading of its
state, the whole loop joins all of it. -/
theorem read_foldl {S : Type w} {E : Type x} {turn : S → E → S} {read : S → A} {g : E → A}
    (h : ∀ s e, read (turn s e) = read s ⊔ g e) (s : S) (l : List E) :
    read (l.foldl turn s) = read s ⊔ joinAll (l.map g) := by
  induction l generalizing s with
  | nil => simp
  | cons e l ih => rw [List.foldl_cons, ih, h, List.map_cons, joinAll_cons, sup_assoc]

end joinAll

/-- A packet on its way from one replica to another. -/
structure Packet (ι : Type u) (A : Type v) where
  src : ι
  dst : ι
  payload : A

/-- The state of the protocol: the value of each replica, the packets in flight, and the
log of all updates with the replica that accepted them. -/
structure Replicas (ι : Type u) (A : Type v) where
  val : ι → A
  inFlight : List (Packet ι A)
  log : List (ι × A)

namespace Replicas

/-- An action: replica `i` accepts the updates `δs` and publishes `d`, or the packet at
position `n` is delivered. -/
inductive Action (ι : Type u) (A : Type v)
  | update (i : ι) (δs : List A) (d : A)
  | deliver (n : ℕ)

variable {ι : Type u} {A : Type v} [DecidableEq ι]

/-- The packets in flight from `i` to `j`. -/
def between (s : Replicas ι A) (i j : ι) : List A :=
  (s.inFlight.filter fun p => p.src = i ∧ p.dst = j).map Packet.payload

/-- What is on its way from `i` to `j` is in flight with these two ends. -/
theorem mem_between {s : Replicas ι A} {i j : ι} {a : A} :
    a ∈ s.between i j ↔ (⟨i, j, a⟩ : Packet ι A) ∈ s.inFlight := by
  simp only [between, List.mem_map, List.mem_filter, decide_eq_true_eq]
  constructor
  · rintro ⟨⟨i', j', a'⟩, ⟨hp, rfl, rfl⟩, rfl⟩
    exact hp
  · intro hp
    exact ⟨⟨i, j, a⟩, ⟨hp, rfl, rfl⟩, rfl⟩

variable [SemilatticeSup A] [OrderBot A]

/-- The state after replica `i` accepted `δs` and published `d` to its peers. -/
def update (peers : ι → List ι) (s : Replicas ι A) (i : ι) (δs : List A) (d : A) :
    Replicas ι A where
  val := Function.update s.val i (s.val i ⊔ joinAll δs)
  inFlight := s.inFlight ++ (peers i).map fun j => ⟨i, j, d⟩
  log := s.log ++ δs.map fun δ => (i, δ)

/-- The state after the packet `p` at position `n` was delivered. -/
def deliver (s : Replicas ι A) (n : ℕ) (p : Packet ι A) : Replicas ι A where
  val := Function.update s.val p.dst (s.val p.dst ⊔ p.payload)
  inFlight := s.inFlight.eraseIdx n
  log := s.log

open Classical in
/-- The protocol. A published value lies between the accepted updates and the new value of
the replica. -/
noncomputable def protocol (peers : ι → List ι) : Machine (Replicas ι A) (Action ι A) where
  init := ⟨fun _ => ⊥, [], []⟩
  step s
    | .update i δs d =>
        if joinAll δs ≤ d ∧ d ≤ s.val i ⊔ joinAll δs then some (s.update peers i δs d)
        else none
    | .deliver n => (s.inFlight[n]?).map (s.deliver n)

/-- The join of all accepted updates. -/
def total (s : Replicas ι A) : A :=
  joinAll (s.log.map Prod.snd)

/-- The invariant of the protocol. -/
structure Inv (s : Replicas ι A) : Prop where
  /-- What `i` accepted is at `j` or on its way from `i` to `j`. -/
  covered : ∀ i δ, (i, δ) ∈ s.log → ∀ j, δ ≤ s.val j ⊔ joinAll (s.between i j)
  /-- No replica holds more than what was accepted. -/
  val_le : ∀ j, s.val j ≤ s.total
  /-- No packet carries more than what was accepted. -/
  payload_le : ∀ p ∈ s.inFlight, p.payload ≤ s.total

/-- At the beginning nothing has been accepted and nothing is on its way. -/
theorem inv_init (peers : ι → List ι) : Inv (protocol (A := A) peers).init where
  covered _ _ h := absurd h List.not_mem_nil
  val_le _ := bot_le
  payload_le _ h := absurd h List.not_mem_nil

/-- An update keeps the invariant: the updates are below what is published to the peers,
and below the new value of the replica itself. -/
theorem Inv.update {peers : ι → List ι} (hpeers : ∀ i j, j ≠ i → j ∈ peers i)
    {s : Replicas ι A} (h : Inv s) {i : ι} {δs : List A} {d : A} (hδ : joinAll δs ≤ d)
    (hd : d ≤ s.val i ⊔ joinAll δs) : Inv (s.update peers i δs d) := by
  have htotal : s.total ≤ (s.update peers i δs d).total := by
    refine joinAll_le.mpr fun a ha => le_joinAll ?_
    obtain ⟨e, he, rfl⟩ := List.mem_map.mp ha
    exact List.mem_map_of_mem (List.mem_append_left _ he)
  have hnew : joinAll δs ≤ (s.update peers i δs d).total := by
    refine joinAll_le.mpr fun δ hδ => le_joinAll ?_
    have hmem : (i, δ) ∈ (s.update peers i δs d).log :=
      List.mem_append_right _ (List.mem_map_of_mem hδ)
    exact List.mem_map_of_mem (f := Prod.snd) hmem
  have hval : s.val i ⊔ joinAll δs ≤ (s.update peers i δs d).total :=
    sup_le ((h.val_le i).trans htotal) hnew
  have hbetween : ∀ k j, joinAll (s.between k j) ≤
      joinAll ((s.update peers i δs d).between k j) := by
    intro k j
    refine joinAll_le.mpr fun a ha => le_joinAll (mem_between.mpr ?_)
    exact List.mem_append_left _ (mem_between.mp ha)
  have hgrow : ∀ j, s.val j ≤ (s.update peers i δs d).val j := by
    intro j
    by_cases hj : j = i
    · subst hj
      simp [Replicas.update]
    · simp [Replicas.update, Function.update_of_ne hj]
  constructor
  · intro k δ hk j
    rcases List.mem_append.mp hk with hk | hk
    · exact (h.covered k δ hk j).trans (sup_le_sup (hgrow j) (hbetween k j))
    · obtain ⟨δ', hδ', heq⟩ := List.mem_map.mp hk
      obtain ⟨rfl, rfl⟩ := Prod.mk.injEq _ _ _ _ ▸ heq
      by_cases hj : j = i
      · subst hj
        refine le_sup_of_le_left ?_
        simp only [Replicas.update, Function.update_self]
        exact le_sup_of_le_right (le_joinAll hδ')
      · refine le_sup_of_le_right (((le_joinAll hδ').trans hδ).trans (le_joinAll ?_))
        refine mem_between.mpr (List.mem_append_right _ ?_)
        exact List.mem_map.mpr ⟨j, hpeers i j hj, rfl⟩
  · intro j
    by_cases hj : j = i
    · subst hj
      simpa [Replicas.update] using hval
    · simpa [Replicas.update, Function.update_of_ne hj] using (h.val_le j).trans htotal
  · intro p hp
    rcases List.mem_append.mp hp with hp | hp
    · exact (h.payload_le p hp).trans htotal
    · obtain ⟨j, -, rfl⟩ := List.mem_map.mp hp
      exact hd.trans hval

/-- A delivery keeps the invariant: what leaves the flight arrives in the receiver's
value. -/
theorem Inv.deliver {s : Replicas ι A} (h : Inv s) {n : ℕ} {p : Packet ι A}
    (hp : s.inFlight[n]? = some p) : Inv (s.deliver n p) := by
  have hpmem : p ∈ s.inFlight := List.mem_of_getElem? hp
  have hgrow : ∀ j, s.val j ≤ (s.deliver n p).val j := by
    intro j
    by_cases hj : j = p.dst
    · subst hj
      simp [Replicas.deliver]
    · simp [Replicas.deliver, Function.update_of_ne hj]
  constructor
  · intro i δ hi j
    refine (h.covered i δ hi j).trans (sup_le (le_sup_of_le_left (hgrow j)) ?_)
    refine joinAll_le.mpr fun a ha => ?_
    obtain ⟨m, hm⟩ := List.mem_iff_getElem?.mp (mem_between.mp ha)
    by_cases hmn : m = n
    · -- This is the packet that was delivered.
      obtain rfl : p = ⟨i, j, a⟩ := by
        rw [hmn, hp] at hm
        exact Option.some.inj hm
      refine le_sup_of_le_left ?_
      simp [Replicas.deliver]
    · refine le_sup_of_le_right (le_joinAll (mem_between.mpr ?_))
      exact List.mem_eraseIdx_iff_getElem?.mpr ⟨m, hmn, hm⟩
  · intro j
    change (s.deliver n p).val j ≤ s.total
    by_cases hj : j = p.dst
    · subst hj
      simpa [Replicas.deliver] using sup_le (h.val_le p.dst) (h.payload_le p hpmem)
    · simpa [Replicas.deliver, Function.update_of_ne hj] using h.val_le j
  · intro q hq
    exact h.payload_le q (List.mem_of_mem_eraseIdx hq)

/-- **The invariant holds in every reachable state.** -/
theorem inv_of_reachable {peers : ι → List ι} (hpeers : ∀ i j, j ≠ i → j ∈ peers i)
    {s : Replicas ι A} (h : (protocol peers).Reachable s) : Inv s := by
  refine Machine.Reachable.invariant (inv_init peers) (fun s a s' _ hi hs => ?_) h
  cases a with
  | update i δs d =>
      simp only [protocol] at hs
      split_ifs at hs with hg
      obtain rfl := Option.some.inj hs
      exact hi.update hpeers hg.1 hg.2
  | deliver n =>
      obtain ⟨p, hp, rfl⟩ := Option.map_eq_some_iff.mp hs
      exact hi.deliver hp

/-- **Convergence**: with nothing in flight every replica holds the join of the log. -/
theorem Inv.converged {s : Replicas ι A} (h : Inv s) (hnone : s.inFlight = []) (j : ι) :
    s.val j = s.total := by
  refine le_antisymm (h.val_le j) (joinAll_le.mpr fun δ hδ => ?_)
  obtain ⟨⟨i, δ⟩, hi, rfl⟩ := List.mem_map.mp hδ
  simpa [between, hnone] using h.covered i δ hi j

end Replicas
