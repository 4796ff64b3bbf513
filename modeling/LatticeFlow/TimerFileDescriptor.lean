import Mathlib.Algebra.Group.Int.Defs
import Mathlib.Algebra.Group.Nat.Defs
import Mathlib.Logic.Equiv.Basic
import Mathlib.Tactic.Set
import LatticeFlow.Lib.Machine

/-!
# Timer File Descriptors

A `TimerFileDescriptor` of `click/` constructs a timer of the kernel and owns the descriptor of
it: objects are moved, assigned to and destroyed, and the last one that has the descriptor
closes it. An object that has been moved from has the descriptor `-1`.

The kernel is the table of the open descriptors of the process. What it does is assumed here,
as the manual of `timerfd_create` has it. It hands out descriptors that are not open, and uses
their numbers again; the timers are numbered in the order in which they have been created, so
that a number stands for one timer only. Other parts of the process open and close descriptors
of their own. A timer that is armed expires at any time; one with no interval expires once. A
`read` that would block is no step.

## Main results

* `timerFileDescriptors_own`: in every run the timers that are open are those of the objects,
  each of one object, and each is closed once and by nobody else.
* `timerFileDescriptor_reads`: what an object knows about its timer, and what is read from it.
-/

namespace LatticeFlow

/-! ### The kernel -/

/-- A `timespec`. -/
structure Timespec where
  tv_sec : ℤ
  tv_nsec : ℤ
  deriving DecidableEq, Repr

/-- An `itimerspec`. -/
structure Itimerspec where
  it_interval : Timespec
  it_value : Timespec
  deriving DecidableEq, Repr

/-- A timer of the kernel: its number, what it has been set to, whether it is armed, and the
expirations that have not been read. -/
structure KernelTimer where
  number : ℕ
  setting : Itimerspec
  armed : Bool
  unread : ℕ := 0
  deriving DecidableEq, Repr

/-- What is open under a descriptor. -/
inductive OpenFile
  | timer (k : KernelTimer)
  | other
  deriving DecidableEq, Repr

/-- What happens to the timers. -/
inductive TimerCall
  | created (n : ℕ)
  | expired (n : ℕ)
  | read (n num_expirations : ℕ)
  | closed (n : ℕ)
  /-- `close` of a descriptor under which no timer is open. -/
  | stray (fd : ℤ)
  /-- `read` of one. -/
  | strayRead (fd : ℤ)
  deriving DecidableEq, Repr

/-- The number of timers that have been created. -/
def created (log : List TimerCall) : ℕ :=
  log.countP fun | .created _ => true | _ => false

/-- What has been read from timer `n`. -/
def readFrom (n : ℕ) : List TimerCall → ℕ
  | [] => 0
  | .read m num_expirations :: log => (if m = n then num_expirations else 0) + readFrom n log
  | _ :: log => readFrom n log

/-- `timerfd_settime` refuses anything else. -/
def Timespec.Valid (t : Timespec) : Prop :=
  0 ≤ t.tv_sec ∧ 0 ≤ t.tv_nsec ∧ t.tv_nsec < 10 ^ 9

instance (t : Timespec) : Decidable t.Valid :=
  inferInstanceAs (Decidable (_ ∧ _))

/-! ### The class -/

/-- A `TimerFileDescriptor`. -/
structure TimerFileDescriptor where
  value_ : ℤ
  interval_ : ℤ
  timerfd_ : ℤ
  deriving DecidableEq, Repr

/-- `nanoseconds_to_timespec`; the division truncates. -/
def nanosecondsToTimespec (d : ℤ) : Timespec where
  tv_sec := d.tdiv (10 ^ 9)
  tv_nsec := d.tmod (10 ^ 9)

/-- `new_value` of the constructor. -/
def newValue (value interval : ℤ) : Itimerspec where
  it_interval := nanosecondsToTimespec interval
  it_value := nanosecondsToTimespec value

/-- `swap(lhs, rhs)`. -/
def TimerFileDescriptor.swap (lhs rhs : TimerFileDescriptor) :
    TimerFileDescriptor × TimerFileDescriptor :=
  (⟨rhs.value_, rhs.interval_, rhs.timerfd_⟩, ⟨lhs.value_, lhs.interval_, lhs.timerfd_⟩)

/-- The process: the open descriptors, the objects that are alive, and whether an assertion has
failed. -/
structure TimerProcess (O : Type) where
  files : ℤ → Option OpenFile := fun _ => none
  objects : O → Option TimerFileDescriptor := fun _ => none
  log : List TimerCall := []
  aborted : Bool := false

section Model

variable {O : Type} [DecidableEq O]

namespace TimerProcess

/-- `close(fd)`. -/
def close (s : TimerProcess O) (fd : ℤ) : TimerProcess O :=
  match s.files fd with
  | some (.timer k) =>
      { s with files := Function.update s.files fd none, log := s.log ++ [.closed k.number] }
  | some .other =>
      { s with files := Function.update s.files fd none, log := s.log ++ [.stray fd] }
  | none => { s with log := s.log ++ [.stray fd] }

/-- The destructor. -/
def destruct (s : TimerProcess O) (timer : TimerFileDescriptor) : TimerProcess O :=
  if timer.timerfd_ ≠ -1 then s.close timer.timerfd_ else s

/-- The constructor, if `timerfd_create` returns `fd`; `none` if an assertion fails. A timer
whose value is zero is not armed. -/
def construct (s : TimerProcess O) (value interval fd : ℤ) :
    Option (TimerFileDescriptor × TimerProcess O) :=
  if value ≠ 0 ∨ interval ≠ 0 then
    if fd ≠ -1 then
      let new_value := newValue value interval
      if new_value.it_interval.Valid ∧ new_value.it_value.Valid then
        some (⟨value, interval, fd⟩,
          { s with
            files := Function.update s.files fd (some (.timer
              { number := created s.log
                setting := new_value
                armed := new_value.it_value ≠ ⟨0, 0⟩ }))
            log := s.log ++ [.created (created s.log)] })
      else none
    else none
  else none

/-- The move constructor, from object `p`, which is `timer`; the new object is `timer`. -/
def moved (s : TimerProcess O) (p : O) (timer : TimerFileDescriptor) : TimerProcess O :=
  { s with objects := Function.update s.objects p (some { timer with timerfd_ := -1 }) }

/-- `operator=` of object `o`, which is `this`, with the parameter `timer`. -/
def assign (s : TimerProcess O) (o : O) (this timer : TimerFileDescriptor) : TimerProcess O :=
  let swapped := this.swap timer
  ({ s with objects := Function.update s.objects o (some swapped.1) }).destruct swapped.2

/-- `Read()`, of descriptor `fd`; `none` as long as the timer has not expired. The assertion
fails if nothing is open under the descriptor. -/
def read (s : TimerProcess O) (fd : ℤ) : Option (TimerProcess O) :=
  match s.files fd with
  | some (.timer k) =>
      if 0 < k.unread then
        some { s with
          files := Function.update s.files fd (some (.timer { k with unread := 0 }))
          log := s.log ++ [.read k.number k.unread] }
      else none
  | some .other => some { s with log := s.log ++ [.strayRead fd] }
  | none => some { s with log := s.log ++ [.strayRead fd], aborted := true }

/-- The timer under a descriptor expires. -/
def expire (s : TimerProcess O) (fd : ℤ) (k : KernelTimer) : TimerProcess O :=
  { s with
    files := Function.update s.files fd (some (.timer
      { k with armed := k.setting.it_interval ≠ ⟨0, 0⟩, unread := k.unread + 1 }))
    log := s.log ++ [.expired k.number] }

end TimerProcess

/-- What moves a process. -/
inductive TimerProcessAction (O : Type)
  /-- `TimerFileDescriptor o(value, interval)`. -/
  | construct (o : O) (value interval fd : ℤ)
  /-- `TimerFileDescriptor o(std::move(p))`. -/
  | moveConstruct (o p : O)
  /-- `o = std::move(p)`. -/
  | assign (o p : O)
  /-- `o = TimerFileDescriptor(value, interval)`. -/
  | assignNew (o : O) (value interval fd : ℤ)
  /-- `o` is destroyed. -/
  | destroy (o : O)
  /-- `o.Read()`. -/
  | read (o : O)
  | expire (fd : ℤ)
  /-- Another part of the process opens or closes a descriptor. -/
  | openOther (fd : ℤ)
  | closeOther (fd : ℤ)
  deriving DecidableEq, Repr

/-- `timerfd_create` may return `fd`. -/
def TimerProcess.MayOpen (s : TimerProcess O) (fd : ℤ) : Prop :=
  0 ≤ fd ∧ s.files fd = none

instance (s : TimerProcess O) (fd : ℤ) : Decidable (s.MayOpen fd) :=
  inferInstanceAs (Decidable (_ ∧ _))

/-- A process with timer file descriptors. -/
def timerProcess (O : Type) [DecidableEq O] :
    Machine (TimerProcess O) (TimerProcessAction O) where
  init := {}
  step s a :=
    if s.aborted then none
    else
      match a with
      | .construct o value interval fd =>
          if s.objects o = none ∧ (fd = -1 ∨ s.MayOpen fd) then
            match s.construct value interval fd with
            | some (timer, s) =>
                some { s with objects := Function.update s.objects o (some timer) }
            | none => some { s with aborted := true }
          else none
      | .moveConstruct o p =>
          if s.objects o = none then
            (s.objects p).map fun timer =>
              let s := s.moved p timer
              { s with objects := Function.update s.objects o (some timer) }
          else none
      | .assign o p =>
          (s.objects p).bind fun timer =>
            let s := s.moved p timer
            (s.objects o).map fun this => s.assign o this timer
      | .assignNew o value interval fd =>
          if fd = -1 ∨ s.MayOpen fd then
            (s.objects o).map fun this =>
              match s.construct value interval fd with
              | some (timer, s) => s.assign o this timer
              | none => { s with aborted := true }
          else none
      | .destroy o =>
          (s.objects o).map fun timer =>
            ({ s with objects := Function.update s.objects o none }).destruct timer
      | .read o => (s.objects o).bind fun timer => s.read timer.timerfd_
      | .expire fd =>
          match s.files fd with
          | some (.timer k) => if k.armed then some (s.expire fd k) else none
          | _ => none
      | .openOther fd =>
          if s.MayOpen fd then
            some { s with files := Function.update s.files fd (some .other) }
          else none
      | .closeOther fd =>
          if s.files fd = some .other then
            some { s with files := Function.update s.files fd none }
          else none

end Model

/-! ### Owners -/

/-- An entry of a table after an update. -/
theorem of_update_some {α β : Type} [DecidableEq α] {f : α → Option β} {a a' : α} {b b' : β}
    (h : Function.update f a (some b) a' = some b') :
    a' = a ∧ b' = b ∨ a' ≠ a ∧ f a' = some b' := by
  by_cases ha : a' = a
  · rw [ha, Function.update_self] at h
    exact .inl ⟨ha, (Option.some.inj h).symm⟩
  · rw [Function.update_of_ne ha] at h
    exact .inr ⟨ha, h⟩

/-- An entry of a table after another one has been taken out. -/
theorem of_update_none {α β : Type} [DecidableEq α] {f : α → Option β} {a a' : α} {b' : β}
    (h : Function.update f a none a' = some b') : a' ≠ a ∧ f a' = some b' := by
  by_cases ha : a' = a
  · rw [ha, Function.update_self] at h
    cases h
  · rw [Function.update_of_ne ha] at h
    exact ⟨ha, h⟩

/-- The timers among the open files. -/
def timers (files : ℤ → Option OpenFile) (fd : ℤ) : Option KernelTimer :=
  match files fd with
  | some (.timer k) => some k
  | _ => none

/-- The timer of a file. -/
def OpenFile.timer? : OpenFile → Option KernelTimer
  | timer k => some k
  | other => none

/-- The timers are the open files that are timers. -/
theorem timers_eq_some_iff {files : ℤ → Option OpenFile} {fd : ℤ} {k : KernelTimer} :
    timers files fd = some k ↔ files fd = some (.timer k) := by
  rw [timers]
  split <;> simp_all

/-- What becomes of the timers when a descriptor gets another file. -/
theorem timers_update (files : ℤ → Option OpenFile) (fd : ℤ) (file : Option OpenFile) :
    timers (Function.update files fd file) =
      Function.update (timers files) fd (file.bind OpenFile.timer?) := by
  funext fd'
  by_cases hfd : fd' = fd
  · subst hfd
    rw [Function.update_self, timers, Function.update_self]
    rcases file with _ | (_ | _) <;> rfl
  · rw [Function.update_of_ne hfd, timers, timers, Function.update_of_ne hfd]

/-- The object, if it has a descriptor. -/
def holding (timer : Option TimerFileDescriptor) : Option TimerFileDescriptor :=
  timer.filter fun timer => timer.timerfd_ ≠ -1

/-- The constructor accepts these values. -/
structure TimerFileDescriptor.Proper (t : TimerFileDescriptor) : Prop where
  value_nonneg : 0 ≤ t.value_
  interval_nonneg : 0 ≤ t.interval_
  ne_zero : t.value_ ≠ 0 ∨ t.interval_ ≠ 0

/-- The timers of the kernel are those of the objects, each of one object. -/
structure Owns {ι : Type} (T : ℤ → Option KernelTimer) (held : ι → Option TimerFileDescriptor) :
    Prop where
  opens : ∀ i t, held i = some t →
    t.Proper ∧ ∃ k, T t.timerfd_ = some k ∧ k.setting = newValue t.value_ t.interval_
  unique : ∀ i j t u, held i = some t → held j = some u → t.timerfd_ = u.timerfd_ → i = j
  owned : ∀ fd k, T fd = some k → ∃ i t, held i = some t ∧ t.timerfd_ = fd

namespace Owns

variable {ι κ : Type} {T : ℤ → Option KernelTimer} {held : ι → Option TimerFileDescriptor}

/-- Descriptors change hands. -/
theorem reindex (h : Owns T held) (e : κ ≃ ι) : Owns T (held ∘ e) where
  opens i t hi := h.opens (e i) t hi
  unique i j t u hi hj hfd := e.injective (h.unique (e i) (e j) t u hi hj hfd)
  owned fd k hk := by
    obtain ⟨i, t, hi, hfd⟩ := h.owned fd k hk
    exact ⟨e.symm i, t, by simpa using hi, hfd⟩

/-- A place for one more object. -/
theorem widen (h : Owns T held) : Owns T fun i : Option ι => i.bind held where
  opens i t hi := by
    obtain ⟨j, -, hj⟩ := Option.bind_eq_some_iff.mp hi
    exact h.opens j t hj
  unique i j t u hi hj hfd := by
    obtain ⟨i', rfl, hi'⟩ := Option.bind_eq_some_iff.mp hi
    obtain ⟨j', rfl, hj'⟩ := Option.bind_eq_some_iff.mp hj
    exact congrArg some (h.unique i' j' t u hi' hj' hfd)
  owned fd k hk := by
    obtain ⟨i, t, hi, hfd⟩ := h.owned fd k hk
    exact ⟨some i, t, hi, hfd⟩

/-- A place that is not used. -/
theorem narrow {held : Option ι → Option TimerFileDescriptor} (h : Owns T held)
    (hnone : held none = none) : Owns T fun i => held (some i) where
  opens i t hi := h.opens (some i) t hi
  unique i j t u hi hj hfd := Option.some.inj (h.unique (some i) (some j) t u hi hj hfd)
  owned fd k hk := by
    obtain ⟨i, t, hi, hfd⟩ := h.owned fd k hk
    cases i with
    | none => simp [hnone] at hi
    | some i => exact ⟨i, t, hi, hfd⟩

/-- Something happens to a timer. -/
theorem change (h : Owns T held) {fd : ℤ} {k k' : KernelTimer} (hk : T fd = some k)
    (hset : k'.setting = k.setting) : Owns (Function.update T fd (some k')) held where
  opens i t hi := by
    obtain ⟨ht, l, hl, hlset⟩ := h.opens i t hi
    by_cases hfd : t.timerfd_ = fd
    · rw [hfd, hk] at hl
      obtain rfl := Option.some.inj hl
      exact ⟨ht, k', by rw [hfd, Function.update_self], hset.trans hlset⟩
    · exact ⟨ht, l, by rw [Function.update_of_ne hfd, hl], hlset⟩
  unique := h.unique
  owned fd' l hl := by
    by_cases hfd : fd' = fd
    · rw [hfd]
      exact h.owned fd k hk
    · rw [Function.update_of_ne hfd] at hl
      exact h.owned fd' l hl

variable [DecidableEq ι]

/-- A new timer, of an object that has had no descriptor. -/
theorem create (h : Owns T held) {i : ι} (hi : held i = none) {t : TimerFileDescriptor}
    (ht : t.Proper) (hT : T t.timerfd_ = none) {k : KernelTimer}
    (hk : k.setting = newValue t.value_ t.interval_) :
    Owns (Function.update T t.timerfd_ (some k)) (Function.update held i (some t)) where
  opens j u hj := by
    obtain ⟨-, rfl⟩ | ⟨-, hj⟩ := of_update_some hj
    · exact ⟨ht, k, Function.update_self .., hk⟩
    · obtain ⟨hu, k', hk', hset⟩ := h.opens j u hj
      refine ⟨hu, k', ?_, hset⟩
      rw [Function.update_of_ne]
      · exact hk'
      · intro hfd
        rw [hfd, hT] at hk'
        cases hk'
  unique j l u v hj hl hfd := by
    -- The descriptor of an object that is there already is not the new one.
    have hold : ∀ l v, held l = some v → v.timerfd_ ≠ t.timerfd_ := by
      intro l v hl hfd
      obtain ⟨-, k', hk', -⟩ := h.opens l v hl
      rw [hfd, hT] at hk'
      cases hk'
    obtain ⟨hji, rfl⟩ | ⟨-, hj⟩ := of_update_some hj
    · obtain ⟨hli, -⟩ | ⟨-, hl⟩ := of_update_some hl
      · rw [hji, hli]
      · exact absurd hfd.symm (hold l v hl)
    · obtain ⟨-, hv⟩ | ⟨-, hl⟩ := of_update_some hl
      · rw [hv] at hfd
        exact absurd hfd (hold j u hj)
      · exact h.unique j l u v hj hl hfd
  owned fd k' hk' := by
    by_cases hfd : fd = t.timerfd_
    · exact ⟨i, t, Function.update_self .., hfd.symm⟩
    · rw [Function.update_of_ne hfd] at hk'
      obtain ⟨j, u, hj, hu⟩ := h.owned fd k' hk'
      refine ⟨j, u, ?_, hu⟩
      rw [Function.update_of_ne]
      · exact hj
      · rintro rfl
        rw [hi] at hj
        cases hj

/-- An object closes its descriptor. -/
theorem close (h : Owns T held) {i : ι} {t : TimerFileDescriptor} (hi : held i = some t) :
    Owns (Function.update T t.timerfd_ none) (Function.update held i none) where
  opens j u hj := by
    obtain ⟨hji, hj⟩ := of_update_none hj
    obtain ⟨hu, k, hk, hset⟩ := h.opens j u hj
    refine ⟨hu, k, ?_, hset⟩
    rw [Function.update_of_ne]
    · exact hk
    · exact fun hfd => hji (h.unique j i u t hj hi hfd)
  unique j l u v hj hl hfd :=
    h.unique j l u v (of_update_none hj).2 (of_update_none hl).2 hfd
  owned fd k hk := by
    obtain ⟨hfd, hk⟩ := of_update_none hk
    obtain ⟨j, u, hj, hu⟩ := h.owned fd k hk
    refine ⟨j, u, ?_, hu⟩
    rw [Function.update_of_ne]
    · exact hj
    · rintro rfl
      rw [hi] at hj
      obtain rfl := Option.some.inj hj
      exact hfd hu.symm

end Owns

/-! ### The account of the timers -/

section Account

variable {log : List TimerCall} {T : ℤ → Option KernelTimer}

@[simp] theorem readFrom_append (n : ℕ) (log log' : List TimerCall) :
    readFrom n (log ++ log') = readFrom n log + readFrom n log' := by
  induction log with
  | nil => simp [readFrom]
  | cons call log ih => cases call <;> simp [readFrom, ih, Nat.add_assoc]

/-- What the log has to do with a timer that is open. -/
structure KernelTimer.Accounts (k : KernelTimer) (log : List TimerCall) : Prop where
  open_ : .closed k.number ∉ log
  unread : readFrom k.number log + k.unread = log.count (.expired k.number)
  never : k.setting.it_value = ⟨0, 0⟩ → k.armed = false ∧ log.count (.expired k.number) = 0
  once : k.setting.it_interval = ⟨0, 0⟩ →
    log.count (.expired k.number) + (if k.armed then 1 else 0) ≤ 1

/-- Another timer is concerned. -/
theorem KernelTimer.Accounts.concat {k : KernelTimer} (h : k.Accounts log) {call : TimerCall}
    (hclosed : call ≠ .closed k.number) (hexpired : call ≠ .expired k.number)
    (hread : readFrom k.number [call] = 0) : k.Accounts (log ++ [call]) := by
  have hcount : (log ++ [call]).count (.expired k.number) = log.count (.expired k.number) := by
    rw [List.count_append, List.count_singleton, if_neg (by simpa using hexpired), add_zero]
  refine ⟨?_, ?_, ?_, ?_⟩
  · simpa [h.open_] using hclosed.symm
  · rw [readFrom_append, hread, hcount]
    exact h.unread
  · rw [hcount]
    exact h.never
  · rw [hcount]
    exact h.once

/-- What the log has to do with all timers. -/
structure Ledger (T : ℤ → Option KernelTimer) (log : List TimerCall) : Prop where
  number_lt : ∀ fd k, T fd = some k → k.number < created log
  number_inj : ∀ fd fd' k k', T fd = some k → T fd' = some k' → k.number = k'.number → fd = fd'
  accounts : ∀ fd k, T fd = some k → k.Accounts log
  closed : ∀ n < created log, (∀ fd k, T fd = some k → k.number ≠ n) → log.count (.closed n) = 1
  future : ∀ n, created log ≤ n →
    .closed n ∉ log ∧ .expired n ∉ log ∧ readFrom n log = 0

namespace Ledger

/-- A timer is created. -/
theorem create (h : Ledger T log) {fd : ℤ} (hfd : T fd = none) (setting : Itimerspec) :
    Ledger (Function.update T fd (some
        ⟨created log, setting, decide (setting.it_value ≠ ⟨0, 0⟩), 0⟩))
      (log ++ [.created (created log)]) := by
  set k : KernelTimer := ⟨created log, setting, decide (setting.it_value ≠ ⟨0, 0⟩), 0⟩ with hk
  have hone : created (log ++ [.created (created log)]) = created log + 1 := by simp [created]
  obtain ⟨hclosed, hexpired, hread⟩ := h.future (created log) (Nat.le_refl _)
  refine ⟨fun fd' l hl => ?_, fun fd₁ fd₂ k₁ k₂ h₁ h₂ hnum => ?_, fun fd' l hl => ?_,
    fun n hn hne => ?_, fun n hn => ?_⟩
  · rw [hone]
    obtain ⟨-, rfl⟩ | ⟨-, hl⟩ := of_update_some hl
    · exact Nat.lt_succ_self _
    · exact Nat.lt_succ_of_lt (h.number_lt fd' l hl)
  · -- The number of the new timer is larger than those of the others.
    obtain ⟨h₁, hk₁⟩ | ⟨-, h₁⟩ := of_update_some h₁
    · obtain ⟨h₂, -⟩ | ⟨-, h₂⟩ := of_update_some h₂
      · rw [h₁, h₂]
      · have hlt := h.number_lt fd₂ k₂ h₂
        rw [← hnum, hk₁] at hlt
        exact absurd hlt (Nat.lt_irrefl _)
    · obtain ⟨-, hk₂⟩ | ⟨-, h₂⟩ := of_update_some h₂
      · have hlt := h.number_lt fd₁ k₁ h₁
        rw [hnum, hk₂] at hlt
        exact absurd hlt (Nat.lt_irrefl _)
      · exact h.number_inj fd₁ fd₂ k₁ k₂ h₁ h₂ hnum
  · obtain ⟨-, rfl⟩ | ⟨-, hl⟩ := of_update_some hl
    · have hcount : (log ++ [TimerCall.created (created log)]).count
          (.expired (created log)) = 0 := by
        rw [List.count_append, List.count_eq_zero_of_not_mem hexpired]
        simp
      refine ⟨by simpa using hclosed, ?_, fun hzero => ⟨?_, hcount⟩, fun _ => ?_⟩
      · rw [hcount, readFrom_append, hread]
        rfl
      · simpa [hk] using hzero
      · rw [hcount, zero_add]
        split_ifs <;> omega
    · exact (h.accounts fd' l hl).concat (by simp) (by simp) rfl
  · rw [List.count_append, List.count_singleton, if_neg (by simp), add_zero]
    rw [hone] at hn
    have hnumber : created log ≠ n := hne fd k (Function.update_self ..)
    refine h.closed n (by omega) fun fd' l hl => hne fd' l ?_
    rw [Function.update_of_ne]
    · exact hl
    · rintro rfl
      rw [hfd] at hl
      cases hl
  · rw [hone] at hn
    obtain ⟨hclosed, hexpired, hread⟩ := h.future n (by omega)
    refine ⟨by simpa using hclosed, by simpa using hexpired, ?_⟩
    rw [readFrom_append, hread]
    rfl

/-- A timer is closed. -/
theorem close (h : Ledger T log) {fd : ℤ} {k : KernelTimer} (hk : T fd = some k) :
    Ledger (Function.update T fd none) (log ++ [.closed k.number]) := by
  have hsame : created (log ++ [.closed k.number]) = created log := by simp [created]
  refine ⟨fun fd' l hl => ?_, fun fd₁ fd₂ k₁ k₂ h₁ h₂ hnum => ?_, fun fd' l hl => ?_,
    fun n hn hne => ?_, fun n hn => ?_⟩
  · rw [hsame]
    exact h.number_lt fd' l (of_update_none hl).2
  · exact h.number_inj fd₁ fd₂ k₁ k₂ (of_update_none h₁).2 (of_update_none h₂).2 hnum
  · obtain ⟨hne, hl⟩ := of_update_none hl
    have hnumber : k.number ≠ l.number := fun heq =>
      hne (h.number_inj fd fd' k l hk hl heq).symm
    exact (h.accounts fd' l hl).concat (by simpa using hnumber) (by simp) rfl
  · rw [hsame] at hn
    rw [List.count_append, List.count_singleton]
    by_cases hn' : k.number = n
    · -- This is the timer that has been closed.
      rw [← hn', List.count_eq_zero_of_not_mem (h.accounts fd k hk).open_]
      simp
    · rw [if_neg (by simpa using hn'), add_zero]
      refine h.closed n hn fun fd' l hl => ?_
      by_cases hfd' : fd' = fd
      · rw [hfd', hk] at hl
        obtain rfl := Option.some.inj hl
        exact hn'
      · exact hne fd' l (by rw [Function.update_of_ne hfd', hl])
  · rw [hsame] at hn
    obtain ⟨hclosed, hexpired, hread⟩ := h.future n hn
    have hlt := h.number_lt fd k hk
    refine ⟨?_, by simpa using hexpired, ?_⟩
    · simp only [List.mem_append, List.mem_singleton, TimerCall.closed.injEq]
      rintro (hmem | rfl)
      · exact hclosed hmem
      · omega
    · rw [readFrom_append, hread]
      rfl

/-- A timer expires, or is read from. -/
theorem change (h : Ledger T log) {fd : ℤ} {k : KernelTimer} (hk : T fd = some k)
    (k' : KernelTimer) (hnumber : k'.number = k.number) {call : TimerCall}
    (hcall : call = .expired k.number ∨ ∃ m, call = .read k.number m)
    (haccounts : k'.Accounts (log ++ [call])) :
    Ledger (Function.update T fd (some k')) (log ++ [call]) := by
  have hsame : created (log ++ [call]) = created log := by
    rcases hcall with rfl | ⟨m, rfl⟩ <;> simp [created]
  have hclosed : ∀ n, call ≠ .closed n := by
    rcases hcall with rfl | ⟨m, rfl⟩ <;> simp
  have hexpired : ∀ n, n ≠ k.number → call ≠ .expired n := by
    intro n hn
    rcases hcall with rfl | ⟨m, rfl⟩
    · simpa using hn.symm
    · simp
  have hread : ∀ n, n ≠ k.number → readFrom n [call] = 0 := by
    intro n hn
    rcases hcall with rfl | ⟨m, rfl⟩
    · rfl
    · simp [readFrom, hn.symm]
  have hlt := h.number_lt fd k hk
  -- The numbers under the descriptors are the same as before.
  have hnumbers : ∀ fd' l, Function.update T fd (some k') fd' = some l →
      ∃ l', T fd' = some l' ∧ l'.number = l.number := by
    intro fd' l hl
    obtain ⟨rfl, rfl⟩ | ⟨-, hl⟩ := of_update_some hl
    · exact ⟨k, hk, hnumber.symm⟩
    · exact ⟨l, hl, rfl⟩
  refine ⟨fun fd' l hl => ?_, fun fd₁ fd₂ k₁ k₂ h₁ h₂ hnum => ?_, fun fd' l hl => ?_,
    fun n hn hne => ?_, fun n hn => ?_⟩
  · obtain ⟨l', hl', heq⟩ := hnumbers fd' l hl
    rw [hsame, ← heq]
    exact h.number_lt fd' l' hl'
  · obtain ⟨l₁, hl₁, heq₁⟩ := hnumbers fd₁ k₁ h₁
    obtain ⟨l₂, hl₂, heq₂⟩ := hnumbers fd₂ k₂ h₂
    exact h.number_inj fd₁ fd₂ l₁ l₂ hl₁ hl₂ (heq₁.trans (hnum.trans heq₂.symm))
  · obtain ⟨-, rfl⟩ | ⟨hne, hl⟩ := of_update_some hl
    · exact haccounts
    · have hl' : l.number ≠ k.number := fun heq => hne (h.number_inj fd' fd l k hl hk heq)
      exact (h.accounts fd' l hl).concat (hclosed _) (hexpired _ hl') (hread _ hl')
  · rw [hsame] at hn
    rw [List.count_append, List.count_singleton, if_neg (by simpa using hclosed n), add_zero]
    refine h.closed n hn fun fd' l hl => ?_
    by_cases hfd' : fd' = fd
    · rw [hfd', hk] at hl
      obtain rfl := Option.some.inj hl
      rw [← hnumber]
      exact hne fd k' (Function.update_self ..)
    · exact hne fd' l (by rw [Function.update_of_ne hfd', hl])
  · rw [hsame] at hn
    obtain ⟨hnot, hnot', hzero⟩ := h.future n hn
    refine ⟨?_, ?_, ?_⟩
    · simpa [hnot] using (hclosed n).symm
    · simpa [hnot'] using (hexpired n (by omega)).symm
    · rw [readFrom_append, hzero, hread n (by omega)]

/-- A timer expires. -/
theorem expire (h : Ledger T log) {fd : ℤ} {k : KernelTimer} (hk : T fd = some k)
    (harmed : k.armed = true) :
    Ledger (Function.update T fd (some
        { k with armed := decide (k.setting.it_interval ≠ ⟨0, 0⟩), unread := k.unread + 1 }))
      (log ++ [.expired k.number]) := by
  have hacc := h.accounts fd k hk
  have hcount : (log ++ [TimerCall.expired k.number]).count (.expired k.number) =
      log.count (.expired k.number) + 1 := by
    rw [List.count_append, List.count_singleton_self]
  refine h.change hk { k with
    armed := decide (k.setting.it_interval ≠ ⟨0, 0⟩), unread := k.unread + 1 } rfl (.inl rfl)
    ⟨?_, ?_, fun hzero => ?_, fun hzero => ?_⟩
  · simpa using hacc.open_
  · have hread : readFrom k.number [.expired k.number] = 0 := rfl
    have hunread := hacc.unread
    simp only [hcount, readFrom_append, hread]
    omega
  · have hnever := (hacc.never hzero).1
    rw [harmed] at hnever
    cases hnever
  · have honce := hacc.once hzero
    rw [if_pos harmed] at honce
    rw [hcount, if_neg (by simpa using hzero)]
    omega

/-- The expirations of a timer are read. -/
theorem read (h : Ledger T log) {fd : ℤ} {k : KernelTimer} (hk : T fd = some k) :
    Ledger (Function.update T fd (some { k with unread := 0 }))
      (log ++ [.read k.number k.unread]) := by
  have hacc := h.accounts fd k hk
  have hcount : (log ++ [TimerCall.read k.number k.unread]).count (.expired k.number) =
      log.count (.expired k.number) := by
    simp
  refine h.change hk { k with unread := 0 } rfl (.inr ⟨k.unread, rfl⟩)
    ⟨?_, ?_, fun hzero => ?_, fun hzero => ?_⟩
  · simpa using hacc.open_
  · rw [hcount, readFrom_append, ← hacc.unread]
    simp [readFrom]
  · rw [hcount]
    exact hacc.never hzero
  · rw [hcount]
    exact hacc.once hzero

/-- No timer is concerned. -/
theorem strayRead (h : Ledger T log) (fd : ℤ) : Ledger T (log ++ [.strayRead fd]) := by
  have hsame : created (log ++ [.strayRead fd]) = created log := by simp [created]
  refine ⟨fun fd' k hk => ?_, h.number_inj, fun fd' k hk => ?_, fun n hn hne => ?_,
    fun n hn => ?_⟩
  · rw [hsame]
    exact h.number_lt fd' k hk
  · exact (h.accounts fd' k hk).concat (by simp) (by simp) rfl
  · rw [hsame] at hn
    rw [List.count_append, List.count_singleton, if_neg (by simp), add_zero]
    exact h.closed n hn hne
  · rw [hsame] at hn
    obtain ⟨hclosed, hexpired, hread⟩ := h.future n hn
    refine ⟨by simpa using hclosed, by simpa using hexpired, ?_⟩
    rw [readFrom_append, hread]
    rfl

end Ledger

/-- No `close` has met a descriptor without a timer, and no `read` but one of `-1`, which has
ended the process. -/
structure Clean (log : List TimerCall) (aborted : Bool) : Prop where
  close : ∀ fd, .stray fd ∉ log
  read : ∀ fd, .strayRead fd ∈ log → fd = -1 ∧ aborted = true

namespace Clean

variable {aborted : Bool}

/-- A call that meets a timer. -/
theorem append (h : Clean log aborted) {call : TimerCall} (hclose : ∀ fd, call ≠ .stray fd)
    (hread : ∀ fd, call ≠ .strayRead fd) : Clean (log ++ [call]) aborted where
  close fd hmem := (List.mem_append.mp hmem).elim (h.close fd) fun hlast =>
    hclose fd (List.mem_singleton.mp hlast).symm
  read fd hmem := h.read fd <| (List.mem_append.mp hmem).resolve_right fun hlast =>
    hread fd (List.mem_singleton.mp hlast).symm

/-- An assertion fails. -/
theorem abort (h : Clean log aborted) : Clean log true :=
  ⟨h.close, fun fd hmem => ⟨(h.read fd hmem).1, rfl⟩⟩

/-- The assertion of `Read()` fails. -/
theorem strayRead (h : Clean log aborted) : Clean (log ++ [.strayRead (-1)]) true where
  close fd hmem := h.close fd (by simpa using hmem)
  read fd hmem := by
    refine ⟨?_, rfl⟩
    rcases List.mem_append.mp hmem with hmem | hmem
    · exact (h.read fd hmem).1
    · exact TimerCall.strayRead.inj (List.mem_singleton.mp hmem)

end Clean

end Account

/-! ### The operations -/

section Operations

variable {O ι : Type} {s : TimerProcess O} {held : ι → Option TimerFileDescriptor}

/-- An object with a descriptor holds it. -/
theorem holding_of_ne {t : TimerFileDescriptor} (h : t.timerfd_ ≠ -1) :
    holding (some t) = some t := by
  simp [holding, h]

/-- An object without one holds nothing. -/
theorem holding_of_eq {t : TimerFileDescriptor} (h : t.timerfd_ = -1) :
    holding (some t) = none := by
  simp [holding, h]

/-- What is held in a process, and the account of its timers. -/
structure TimerProcess.Keeps (s : TimerProcess O) (held : ι → Option TimerFileDescriptor) :
    Prop where
  owns : Owns (timers s.files) held
  ledger : Ledger (timers s.files) s.log
  nonneg : ∀ fd < 0, s.files fd = none
  clean : Clean s.log s.aborted

/-- Nothing is opened under a negative descriptor. -/
theorem update_of_neg {files : ℤ → Option OpenFile} (h : ∀ fd < 0, files fd = none) {fd : ℤ}
    {file : Option OpenFile} (hfd : 0 ≤ fd ∨ file = none) :
    ∀ fd' < 0, Function.update files fd file fd' = none := by
  intro fd' hneg
  rcases hfd with hfd | rfl
  · rw [Function.update_of_ne (by omega), h fd' hneg]
  · rw [Function.update_apply, h fd' hneg, ite_self]

/-- A valid `timespec` is not negative. -/
theorem nonneg_of_valid {d : ℤ} (h : (nanosecondsToTimespec d).Valid) : 0 ≤ d := by
  obtain ⟨hsec, hnsec, -⟩ := h
  have hd := Int.mul_tdiv_add_tmod d (10 ^ 9)
  simp only [nanosecondsToTimespec] at hsec hnsec
  omega

namespace TimerProcess

variable [DecidableEq ι]

/-- **The destructor** closes what the object holds. -/
theorem Keeps.destruct (h : s.Keeps held) {i : ι} {timer : TimerFileDescriptor}
    (hi : held i = holding (some timer)) :
    (s.destruct timer).Keeps (Function.update held i none) ∧
      (s.destruct timer).objects = s.objects := by
  by_cases hfd : timer.timerfd_ = -1
  · have hsame : s.destruct timer = s := if_neg (by simpa using hfd)
    rw [holding_of_eq hfd] at hi
    rw [hsame, Function.update_eq_self_iff.mpr hi.symm]
    exact ⟨h, rfl⟩
  · rw [holding_of_ne hfd] at hi
    obtain ⟨-, k, hk, -⟩ := h.owns.opens i timer hi
    have hclose : s.destruct timer =
        { s with
          files := Function.update s.files timer.timerfd_ none
          log := s.log ++ [.closed k.number] } := by
      rw [TimerProcess.destruct, if_pos hfd, TimerProcess.close, timers_eq_some_iff.mp hk]
    rw [hclose]
    refine ⟨⟨?_, ?_, update_of_neg h.nonneg (.inr rfl), ?_⟩, rfl⟩
    · rw [timers_update]
      exact h.owns.close hi
    · rw [timers_update]
      exact h.ledger.close hk
    · exact h.clean.append (by simp) (by simp)

/-- **The constructor** creates a timer. -/
theorem Keeps.construct (h : s.Keeps held) {i : ι} (hi : held i = none) {value interval fd : ℤ}
    (hfd : fd = -1 ∨ s.MayOpen fd) {timer : TimerFileDescriptor} {s' : TimerProcess O}
    (hs : s.construct value interval fd = some (timer, s')) :
    s'.Keeps (Function.update held i (holding (some timer))) ∧ s'.objects = s.objects := by
  simp only [TimerProcess.construct] at hs
  split_ifs at hs with hne hfd' hvalid
  obtain ⟨rfl, rfl⟩ := Prod.mk.inj (Option.some.inj hs)
  obtain ⟨hnonneg, hfree⟩ := hfd.resolve_left hfd'
  have hT : timers s.files fd = none := by simp [timers, hfree]
  have hproper : TimerFileDescriptor.Proper ⟨value, interval, fd⟩ :=
    ⟨nonneg_of_valid hvalid.2, nonneg_of_valid hvalid.1, hne⟩
  rw [holding_of_ne (by simpa using hfd')]
  refine ⟨⟨?_, ?_, update_of_neg h.nonneg (.inl hnonneg), ?_⟩, rfl⟩
  · rw [timers_update]
    exact h.owns.create hi hproper hT rfl
  · rw [timers_update]
    exact h.ledger.create hT (newValue value interval)
  · exact h.clean.append (by simp) (by simp)

end TimerProcess

end Operations

section Assignment

variable {O : Type} [DecidableEq O] {s s' : TimerProcess O}

/-- What the objects hold. -/
def heldBy (objects : O → Option TimerFileDescriptor) (o : O) : Option TimerFileDescriptor :=
  holding (objects o)

/-- What the parameter of `operator=` and the objects hold. -/
def heldWith (timer : TimerFileDescriptor) (objects : O → Option TimerFileDescriptor) :
    Option O → Option TimerFileDescriptor
  | none => holding (some timer)
  | some o => heldBy objects o

/-- What becomes of the descriptors held when an object gets another value. -/
theorem heldBy_update (objects : O → Option TimerFileDescriptor) (o : O)
    (timer : Option TimerFileDescriptor) :
    heldBy (Function.update objects o timer) =
      Function.update (heldBy objects) o (holding timer) :=
  funext fun o' => Function.apply_update (fun _ => holding) objects o timer o'

/-- The state after a step of a process. -/
def TimerProcess.Inv (s : TimerProcess O) : Prop :=
  s.Keeps (heldBy s.objects)

namespace TimerProcess

/-- A new object takes over what another one holds. -/
theorem Inv.moveConstruct (h : s.Inv) {o p : O} (ho : s.objects o = none)
    {timer : TimerFileDescriptor} (hp : s.objects p = some timer) :
    Inv { s.moved p timer with
      objects := Function.update (s.moved p timer).objects o (some timer) } := by
  have hne : p ≠ o := by
    rintro rfl
    rw [ho] at hp
    cases hp
  have hheld : heldBy (Function.update (s.moved p timer).objects o (some timer)) =
      heldBy s.objects ∘ Equiv.swap o p := by
    funext i
    simp only [moved, heldBy, Function.comp_apply]
    by_cases hio : i = o
    · rw [hio, Function.update_self, Equiv.swap_apply_left, hp]
    · rw [Function.update_of_ne hio]
      by_cases hip : i = p
      · rw [hip, Function.update_self, Equiv.swap_apply_right, ho]
        rfl
      · rw [Function.update_of_ne hip, Equiv.swap_apply_of_ne_of_ne hio hip]
  refine ⟨?_, h.ledger, h.nonneg, h.clean⟩
  rw [hheld]
  exact h.owns.reindex (Equiv.swap o p)

/-- The parameter takes over what an object holds. -/
theorem Inv.moved (h : s.Inv) {p : O} {timer : TimerFileDescriptor}
    (hp : s.objects p = some timer) :
    (s.moved p timer).Keeps (heldWith timer (s.moved p timer).objects) := by
  have hheld : heldWith timer (s.moved p timer).objects =
      (fun i : Option O => i.bind (heldBy s.objects)) ∘ Equiv.swap none (some p) := by
    funext i
    rcases i with _ | i
    · simp [heldWith, heldBy, hp]
    · by_cases hip : i = p
      · subst hip
        simp [heldWith, heldBy, TimerProcess.moved, holding]
      · rw [Function.comp_apply, Equiv.swap_apply_of_ne_of_ne (by simp) (by simpa using hip)]
        simp [heldWith, heldBy, TimerProcess.moved, hip]
  refine ⟨?_, h.ledger, h.nonneg, h.clean⟩
  rw [hheld]
  exact h.owns.widen.reindex (Equiv.swap none (some p))

/-- **Assignment**: the object gets what the parameter holds, and what it has held is closed. -/
theorem Keeps.assign {o : O} {this timer : TimerFileDescriptor}
    (h : s.Keeps (heldWith timer s.objects)) (ho : s.objects o = some this) :
    (s.assign o this timer).Inv := by
  set t : TimerProcess O := { s with objects := Function.update s.objects o (some timer) }
  have hheld : heldWith this t.objects =
      heldWith timer s.objects ∘ Equiv.swap none (some o) := by
    funext i
    rcases i with _ | i
    · simp [heldWith, heldBy, ho]
    · by_cases hio : i = o
      · subst hio
        simp [heldWith, heldBy, t]
      · rw [Function.comp_apply, Equiv.swap_apply_of_ne_of_ne (by simp) (by simpa using hio)]
        simp [heldWith, heldBy, t, hio]
  have ht : t.Keeps (heldWith this t.objects) := by
    refine ⟨?_, h.ledger, h.nonneg, h.clean⟩
    rw [hheld]
    exact h.owns.reindex (Equiv.swap none (some o))
  have hnone : heldWith this t.objects none = holding (some this) := rfl
  obtain ⟨hkeeps, hobjects⟩ := ht.destruct hnone
  have hassign : s.assign o this timer = t.destruct this := rfl
  rw [hassign]
  refine ⟨?_, hkeeps.ledger, hkeeps.nonneg, hkeeps.clean⟩
  rw [hobjects]
  exact hkeeps.owns.narrow (Function.update_self ..)

/-- The parameter is constructed. -/
theorem Inv.parameter (h : s.Inv) {value interval fd : ℤ} (hfd : fd = -1 ∨ s.MayOpen fd)
    {timer : TimerFileDescriptor}
    (hs : s.construct value interval fd = some (timer, s')) :
    s'.Keeps (heldWith timer s'.objects) ∧ s'.objects = s.objects := by
  have hwide : s.Keeps fun i : Option O => i.bind (heldBy s.objects) :=
    ⟨h.owns.widen, h.ledger, h.nonneg, h.clean⟩
  obtain ⟨hkeeps, hobjects⟩ := hwide.construct (i := none) rfl hfd hs
  have hheld : heldWith timer s'.objects =
      Function.update (fun i : Option O => i.bind (heldBy s.objects)) none
        (holding (some timer)) := by
    funext i
    rcases i with _ | i
    · rfl
    · simp [heldWith, hobjects]
  rw [hheld]
  exact ⟨hkeeps, hobjects⟩

end TimerProcess

end Assignment

/-! ### Runs -/

section Runs

variable {O : Type} {s s' : TimerProcess O}

namespace TimerProcess

/-- Nothing happens to the timers. -/
theorem Inv.other (h : s.Inv) {fd : ℤ} (hfd : timers s.files fd = none) {file : Option OpenFile}
    (hfile : file.bind OpenFile.timer? = none) (hnonneg : 0 ≤ fd ∨ file = none) :
    Inv { s with files := Function.update s.files fd file } := by
  have hsame : timers (Function.update s.files fd file) = timers s.files := by
    rw [timers_update, hfile]
    exact Function.update_eq_self_iff.mpr hfd.symm
  refine ⟨?_, ?_, update_of_neg h.nonneg hnonneg, h.clean⟩
  · rw [hsame]
    exact h.owns
  · rw [hsame]
    exact h.ledger

/-- Something happens to a timer. -/
theorem Inv.change (h : s.Inv) {fd : ℤ} {k : KernelTimer} (hk : s.files fd = some (.timer k))
    (k' : KernelTimer) (hset : k'.setting = k.setting) {call : TimerCall}
    (hclose : ∀ fd', call ≠ .stray fd') (hread : ∀ fd', call ≠ .strayRead fd')
    (hledger : Ledger (Function.update (timers s.files) fd (some k')) (s.log ++ [call])) :
    Inv { s with
      files := Function.update s.files fd (some (.timer k')), log := s.log ++ [call] } := by
  have hfd : 0 ≤ fd := by
    by_contra hneg
    rw [h.nonneg fd (by omega)] at hk
    cases hk
  refine ⟨?_, ?_, update_of_neg h.nonneg (.inl hfd), h.clean.append hclose hread⟩
  · rw [timers_update]
    exact h.owns.change (timers_eq_some_iff.mpr hk) hset
  · rw [timers_update]
    exact hledger

/-- `Read()` of an object: it has a timer, or the descriptor `-1`, under which nothing is
open. -/
theorem Inv.read (h : s.Inv) {o : O} {timer : TimerFileDescriptor}
    (ho : s.objects o = some timer) (hs : s.read timer.timerfd_ = some s') : s'.Inv := by
  rw [TimerProcess.read] at hs
  by_cases hfd : timer.timerfd_ = -1
  · simp only [hfd, h.nonneg (-1) (by omega)] at hs
    obtain rfl := Option.some.inj hs
    exact ⟨h.owns, h.ledger.strayRead (-1), h.nonneg, h.clean.strayRead⟩
  · have hheld : heldBy s.objects o = some timer := by rw [heldBy, ho, holding_of_ne hfd]
    obtain ⟨-, k, hk, -⟩ := h.owns.opens o timer hheld
    have hfile := timers_eq_some_iff.mp hk
    simp only [hfile] at hs
    split_ifs at hs
    obtain rfl := Option.some.inj hs
    exact h.change hfile { k with unread := 0 } rfl (by simp) (by simp) (h.ledger.read hk)

variable [DecidableEq O]

/-- At the beginning there are no objects and no timers. -/
theorem inv_init : (timerProcess O).init.Inv where
  owns := ⟨fun _ _ h => (nomatch h), fun _ _ _ _ h => (nomatch h), fun _ _ h => (nomatch h)⟩
  ledger := ⟨fun _ _ h => (nomatch h), fun _ _ _ _ h => (nomatch h), fun _ _ h => (nomatch h),
    fun n hn => absurd hn (Nat.not_lt_zero n),
    fun _ _ => ⟨List.not_mem_nil, List.not_mem_nil, rfl⟩⟩
  nonneg _ _ := rfl
  clean := ⟨fun _ => List.not_mem_nil, fun _ h => absurd h List.not_mem_nil⟩

/-- **One step** of a process. -/
theorem Inv.step (h : s.Inv) {a : TimerProcessAction O} (hs : (timerProcess O).step s a = some s') :
    s'.Inv := by
  simp only [timerProcess] at hs
  split_ifs at hs with habort
  cases a with
  | construct o value interval fd =>
      simp only at hs
      split_ifs at hs with hguard
      cases hcons : s.construct value interval fd with
      | none =>
          simp only [hcons] at hs
          obtain rfl := Option.some.inj hs
          exact ⟨h.owns, h.ledger, h.nonneg, h.clean.abort⟩
      | some r =>
          obtain ⟨timer, t⟩ := r
          simp only [hcons] at hs
          obtain rfl := Option.some.inj hs
          have hnone : heldBy s.objects o = none := by rw [heldBy, hguard.1]; rfl
          obtain ⟨hkeeps, hobjects⟩ := Keeps.construct h hnone hguard.2 hcons
          refine ⟨?_, hkeeps.ledger, hkeeps.nonneg, hkeeps.clean⟩
          rw [heldBy_update, hobjects]
          exact hkeeps.owns
  | moveConstruct o p =>
      simp only at hs
      split_ifs at hs with ho
      obtain ⟨timer, hp, rfl⟩ := Option.map_eq_some_iff.mp hs
      exact h.moveConstruct ho hp
  | assign o p =>
      obtain ⟨timer, hp, hs⟩ := Option.bind_eq_some_iff.mp hs
      obtain ⟨this, ho, rfl⟩ := Option.map_eq_some_iff.mp hs
      exact (h.moved hp).assign ho
  | assignNew o value interval fd =>
      simp only at hs
      split_ifs at hs with hfd
      obtain ⟨this, ho, rfl⟩ := Option.map_eq_some_iff.mp hs
      cases hcons : s.construct value interval fd with
      | none => exact ⟨h.owns, h.ledger, h.nonneg, h.clean.abort⟩
      | some r =>
          obtain ⟨timer, t⟩ := r
          obtain ⟨hkeeps, hobjects⟩ := h.parameter hfd hcons
          exact hkeeps.assign (hobjects ▸ ho)
  | destroy o =>
      obtain ⟨timer, ho, rfl⟩ := Option.map_eq_some_iff.mp hs
      -- The object is out of the table while its destructor runs.
      have hkeeps : Keeps { s with objects := Function.update s.objects o none }
          (heldBy s.objects) := ⟨h.owns, h.ledger, h.nonneg, h.clean⟩
      have hheld : heldBy s.objects o = holding (some timer) := by rw [heldBy, ho]
      obtain ⟨hkeeps, hobjects⟩ := hkeeps.destruct hheld
      refine ⟨?_, hkeeps.ledger, hkeeps.nonneg, hkeeps.clean⟩
      rw [hobjects, heldBy_update]
      exact hkeeps.owns
  | read o =>
      obtain ⟨timer, ho, hs⟩ := Option.bind_eq_some_iff.mp hs
      exact h.read ho hs
  | expire fd =>
      simp only at hs
      split at hs
      · rename_i k hk
        split_ifs at hs with harmed
        obtain rfl := Option.some.inj hs
        have hledger := h.ledger.expire (timers_eq_some_iff.mpr hk) harmed
        exact h.change hk _ (by rfl) (by simp) (by simp) hledger
      · cases hs
  | openOther fd =>
      simp only at hs
      split_ifs at hs with hopen
      obtain rfl := Option.some.inj hs
      exact h.other (by simp [timers, hopen.2]) rfl (.inl hopen.1)
  | closeOther fd =>
      simp only at hs
      split_ifs at hs with hother
      obtain rfl := Option.some.inj hs
      exact h.other (by simp [timers, hother]) rfl (.inr rfl)

/-- **The invariant** holds in every state of every run. -/
theorem inv_of_reachable (h : (timerProcess O).Reachable s) : s.Inv :=
  h.invariant inv_init fun _ _ _ _ hi hs => hi.step hs

end TimerProcess

variable [DecidableEq O]

/-- **Timer descriptors are uniquely owned.** In every state of every run, whatever objects are
constructed, moved, assigned to and destroyed in whatever order, and whatever other descriptors
the process opens and closes in between: the timers that are open are those of the objects that
have a descriptor, each of one object; no `close` has ever met a descriptor under which no timer
was open, and no `read` but one of the descriptor `-1`, in the `Read()` of an object that had been
moved from, whose assertion failed; and a timer has been closed once if it is open no more, and
not at all if it is. -/
theorem timerFileDescriptors_own (h : (timerProcess O).Reachable s) :
    (∀ fd, (∃ k, s.files fd = some (.timer k)) ↔
      fd ≠ -1 ∧ ∃ o t, s.objects o = some t ∧ t.timerfd_ = fd) ∧
    (∀ o p t u, s.objects o = some t → s.objects p = some u → t.timerfd_ = u.timerfd_ →
      t.timerfd_ ≠ -1 → o = p) ∧
    (∀ fd, .stray fd ∉ s.log) ∧
    (∀ fd, .strayRead fd ∈ s.log → fd = -1 ∧ s.aborted = true) ∧
    ∀ n < created s.log,
      (∃ fd k, s.files fd = some (.timer k) ∧ k.number = n) ∧ s.log.count (.closed n) = 0 ∨
      (∀ fd k, s.files fd = some (.timer k) → k.number ≠ n) ∧ s.log.count (.closed n) = 1 := by
  have hs := TimerProcess.inv_of_reachable h
  refine ⟨fun fd => ⟨?_, ?_⟩, fun o p t u ho hp heq hfd => ?_, hs.clean.close, hs.clean.read,
    fun n hn => ?_⟩
  · rintro ⟨k, hk⟩
    obtain ⟨o, t, ho, rfl⟩ := hs.owns.owned fd k (timers_eq_some_iff.mpr hk)
    obtain ⟨ht, hne⟩ := Option.filter_eq_some_iff.mp ho
    exact ⟨by simpa using hne, o, t, ht, rfl⟩
  · rintro ⟨hfd, o, t, ho, rfl⟩
    obtain ⟨-, k, hk, -⟩ := hs.owns.opens o t (by rw [heldBy, ho, holding_of_ne hfd])
    exact ⟨k, timers_eq_some_iff.mp hk⟩
  · refine hs.owns.unique o p t u ?_ ?_ heq
    · rw [heldBy, ho, holding_of_ne hfd]
    · rw [heldBy, hp, holding_of_ne (heq ▸ hfd)]
  · by_cases hopen : ∃ fd k, s.files fd = some (.timer k) ∧ k.number = n
    · obtain ⟨fd, k, hk, rfl⟩ := hopen
      have hacc := hs.ledger.accounts fd k (timers_eq_some_iff.mpr hk)
      exact .inl ⟨⟨fd, k, hk, rfl⟩, List.count_eq_zero_of_not_mem hacc.open_⟩
    · have hclosed : ∀ fd k, s.files fd = some (.timer k) → k.number ≠ n :=
        fun fd k hk hnum => hopen ⟨fd, k, hk, hnum⟩
      exact .inr ⟨hclosed,
        hs.ledger.closed n hn fun fd k hk => hclosed fd k (timers_eq_some_iff.mp hk)⟩

/-- An object is moved from, gets its descriptor back, is assigned to itself, and is assigned a
new timer; another part of the process then opens the descriptor that has been closed. -/
def moveAndReplace : List (TimerProcessAction ℕ) :=
  [.construct 0 0 7 3, .moveConstruct 1 0, .assign 0 1, .assign 0 0,
    .assignNew 0 1500000000 0 4, .openOther 3, .destroy 1, .expire 4, .read 0]

/-- In the run `moveAndReplace` the first timer has been closed, once, and the second one is
open and belongs to object `0`. -/
theorem timerFileDescriptors_own_move_and_replace : ∃ s,
    (timerProcess ℕ).run (timerProcess ℕ).init moveAndReplace = some s ∧
      s.objects 0 = some ⟨1500000000, 0, 4⟩ ∧ s.objects 1 = none ∧ created s.log = 2 ∧
      s.files 3 = some .other ∧ (∃ k, s.files 4 = some (.timer k)) ∧ .stray 3 ∉ s.log ∧
      s.log.count (.closed 0) = 1 := by
  have hrun : ((timerProcess ℕ).run (timerProcess ℕ).init moveAndReplace).map
      (fun s => (s.objects 0, s.objects 1, created s.log, s.files 3,
        s.log.count (.closed 0))) =
      some (some ⟨1500000000, 0, 4⟩, none, 2, some .other, 1) := by decide
  obtain ⟨s, hs, heq⟩ := Option.map_eq_some_iff.mp hrun
  simp only [Prod.mk.injEq] at heq
  obtain ⟨h0, h1, hcreated, h3, hclosed⟩ := heq
  obtain ⟨hopen, -, hstray, -⟩ := timerFileDescriptors_own (Machine.reachable_of_run hs)
  exact ⟨s, hs, h0, h1, hcreated, h3, (hopen 4).mpr ⟨by decide, 0, _, h0, rfl⟩, hstray 3, hclosed⟩

/-- **An object and its timer.** In every state of every run, an object that has a descriptor
has an open timer, which has been set to its `value_` and `interval_`, in seconds and
nanoseconds. All expirations of the timer have been read or are still to be read, whichever
objects have had the descriptor; without an interval there is at most one, and with the value
zero there is none. -/
theorem timerFileDescriptor_reads (h : (timerProcess O).Reachable s) {o : O}
    {t : TimerFileDescriptor} (ho : s.objects o = some t) (hfd : t.timerfd_ ≠ -1) :
    ∃ k, s.files t.timerfd_ = some (.timer k) ∧
      k.setting.it_value.tv_sec * 10 ^ 9 + k.setting.it_value.tv_nsec = t.value_ ∧
      k.setting.it_interval.tv_sec * 10 ^ 9 + k.setting.it_interval.tv_nsec = t.interval_ ∧
      0 ≤ t.value_ ∧ 0 ≤ t.interval_ ∧
      readFrom k.number s.log + k.unread = s.log.count (.expired k.number) ∧
      (t.interval_ = 0 → s.log.count (.expired k.number) ≤ 1) ∧
      (t.value_ = 0 → s.log.count (.expired k.number) = 0) := by
  have hs := TimerProcess.inv_of_reachable h
  obtain ⟨hproper, k, hk, hset⟩ := hs.owns.opens o t (by rw [heldBy, ho, holding_of_ne hfd])
  have hacc := hs.ledger.accounts t.timerfd_ k hk
  refine ⟨k, timers_eq_some_iff.mp hk, ?_, ?_, hproper.value_nonneg, hproper.interval_nonneg,
    hacc.unread, fun hzero => ?_, fun hzero => ?_⟩
  · rw [hset, mul_comm]
    exact Int.mul_tdiv_add_tmod t.value_ (10 ^ 9)
  · rw [hset, mul_comm]
    exact Int.mul_tdiv_add_tmod t.interval_ (10 ^ 9)
  · have honce := hacc.once (by rw [hset, newValue, hzero]; rfl)
    omega
  · exact (hacc.never (by rw [hset, newValue, hzero]; rfl)).2

/-- In the run `moveAndReplace` the second timer has been set to one second and a half, and its
only expiration has been read. -/
theorem timerFileDescriptor_reads_move_and_replace : ∃ s k,
    (timerProcess ℕ).run (timerProcess ℕ).init moveAndReplace = some s ∧
      s.files 4 = some (.timer k) ∧
      k.setting.it_value.tv_sec * 10 ^ 9 + k.setting.it_value.tv_nsec = 1500000000 ∧
      s.log.count (.expired k.number) ≤ 1 ∧ readFrom 1 s.log = 1 := by
  have hrun : ((timerProcess ℕ).run (timerProcess ℕ).init moveAndReplace).map
      (fun s => (s.objects 0, readFrom 1 s.log)) = some (some ⟨1500000000, 0, 4⟩, 1) := by decide
  obtain ⟨s, hs, heq⟩ := Option.map_eq_some_iff.mp hrun
  obtain ⟨h0, hread⟩ := Prod.mk.inj heq
  obtain ⟨k, hk, hvalue, -, -, -, -, honce, -⟩ :=
    timerFileDescriptor_reads (Machine.reachable_of_run hs) h0 (by decide)
  exact ⟨s, k, hs, hk, hvalue, honce rfl, hread⟩

end Runs

end LatticeFlow
