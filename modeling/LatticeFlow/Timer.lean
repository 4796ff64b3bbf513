import Mathlib.Algebra.Group.Nat.Defs
import LatticeFlow.Driver
import LatticeFlow.Lib.MachineInt
import LatticeFlow.Lib.Ordered

/-!
# Timers on the Event Loop

`Timer` of `click/timer.h` pushes each value that is pushed into it downstream after a delay.
For each value it creates a one-off event handler, which it keeps in a map under an id of
type `int` and registers with the driver. When its timer expires, the handler pushes the
value downstream, takes itself out of the map, and frees itself.

The driver is that of `LatticeFlow.Driver`, over the handlers of any number of timers and
over other handlers. `O` stands for the registrations of the latter, so that an object
registered twice is there twice. When a timer expires, what other handlers do, and
what is downstream of a timer is left open: values may be pushed into any timer before
`Run` is called and while a handler runs, which includes the downstream of a timer.

The handlers that a timer has created are numbered in the order of their creation; this
number is the address of the object, and is never used again. A pointer that must not be
used, `end()` of the map or a null pointer, makes the state `undefined`.

## Main results

* `TimedInv`: what the map of a timer has to do with the trace of the driver.
* `timers_deliver_once`: what holds in every state of a run with less than `2 ^ 31` pushes
  into each timer.
-/

namespace LatticeFlow

/-! ### Timers -/

/-- A `TimerEventHandler`, without the pointers to its timer and to its downstream. -/
structure TimerEventHandler (V : Type) where
  x_ : V
  timer_id_ : ℤ
  deriving DecidableEq, Repr

/-- A `Timer`, and the handlers that it has created. -/
structure Timer (V : Type) where
  timer_id_ : ℤ := 0
  timer_event_handlers_ : OrderedMap ℤ (Option ℕ) := []
  created : List (TimerEventHandler V) := []
  deriving DecidableEq, Repr

/-- The timer after `Timer::push`: a handler has been created and inserted under the current
id, unless there is one already, and the id has been incremented. -/
def Timer.create {V : Type} (t : Timer V) (x : V) : Timer V where
  timer_id_ := increment t.timer_id_
  timer_event_handlers_ := t.timer_event_handlers_.update OrderedMap.less t.timer_id_
    fun old => old.getD (some t.created.length)
  created := t.created ++ [⟨x, t.timer_id_⟩]

/-- `timer_event_handlers_->erase(timer_id_)`. -/
def Timer.erase {V : Type} (t : Timer V) (timer_id_ : ℤ) : Timer V :=
  { t with
    timer_event_handlers_ := t.timer_event_handlers_.erase OrderedMap.less timer_id_ }

/-- An event handler: another one, or the one with a number of a timer. -/
inductive TimedHandler (O K : Type)
  | other (o : O)
  | timer (k : K) (n : ℕ)
  deriving DecidableEq, Repr

/-- What happens to the values of the timers. -/
inductive TimerEvent (K V : Type)
  /-- `push(x)` of a timer. -/
  | pushed (k : K) (x : V)
  /-- `downstream_->push(x_)` of a handler. -/
  | delivered (k : K) (n : ℕ) (x : V)
  /-- A handler is freed. -/
  | freed (k : K) (n : ℕ)
  deriving DecidableEq, Repr

/-- A driver with timers. -/
structure TimedDriver (O K V : Type) where
  driver : Driver (TimedHandler O K) := {}
  timers : K → Timer V := fun _ => {}
  log : List (TimerEvent K V) := []
  undefined : Bool := false

/-- What moves a driver with timers. -/
inductive TimedAction (O K V : Type)
  /-- `RegisterEventHandler` of another handler. -/
  | register (o : O)
  /-- `push(x)` of a timer. -/
  | push (k : K) (x : V)
  | callRun
  | poll (revents : List (BitVec 16))
  | turn
  | handlerReturns
  deriving DecidableEq, Repr

section Model

variable {O K V : Type}

/-- `ZMQ_POLLIN`. -/
def zmqPollin : BitVec 16 := 1

/-- The handlers of the driver. A `TimerEventHandler` is one-off, and its item is its timer
file descriptor. -/
def timedHandler (other : EventHandler O) (timerfd : K → ℕ → ℤ) :
    EventHandler (TimedHandler O K) where
  isOneOff
    | .other o => other.isOneOff o
    | .timer _ _ => true
  getPollitem
    | .other o => other.getPollitem o
    | .timer k n => ⟨0, timerfd k n, zmqPollin, 0⟩

/-- The handler that is running. -/
def Driver.runningHandler {H : Type} (d : Driver H) : Option H :=
  match d.phase with
  | .running l _ => l.event_handlers[l.event_handlers_it]?
  | _ => none

variable (other : EventHandler O) (timerfd : K → ℕ → ℤ) [DecidableEq O] [DecidableEq K]

namespace TimedDriver

/-- `Timer::push`. If the id is in the map already, `insert` does nothing and the new handler
is freed. -/
def push (s : TimedDriver O K V) (k : K) (x : V) : TimedDriver O K V :=
  let t := s.timers k
  match (t.create x).timer_event_handlers_.find OrderedMap.less t.timer_id_ with
  | some (some n) =>
      { driver := s.driver.registerEventHandler (timedHandler other timerfd) (.timer k n)
        timers := Function.update s.timers k (t.create x)
        log := s.log ++ [.pushed k x] ++
          if (t.timer_event_handlers_.find OrderedMap.less t.timer_id_).isSome then
            [.freed k t.created.length]
          else []
        undefined := s.undefined }
  | _ => { s with undefined := true }

/-- `TimerEventHandler::Run`, up to what its downstream does. -/
def beginRun (s : TimedDriver O K V) (k : K) (n : ℕ) : TimedDriver O K V :=
  match (s.timers k).created[n]? with
  | some me => { s with log := s.log ++ [.delivered k n me.x_] }
  | none => { s with undefined := true }

/-- `TimerEventHandler::Run`, from the return of its downstream on. -/
def endRun (s : TimedDriver O K V) (k : K) (n : ℕ) : TimedDriver O K V :=
  let t := s.timers k
  match t.created[n]? with
  | some me =>
      match t.timer_event_handlers_.find OrderedMap.less me.timer_id_ with
      | some released =>
          { s with
            timers := Function.update s.timers k (t.erase me.timer_id_)
            log := s.log ++ released.toList.map (.freed k) }
      | none => { s with undefined := true }
  | none => { s with undefined := true }

/-- The driver has turned to `d`, which may be in the `Run` of a timer. -/
def turned (s : TimedDriver O K V) (d : Driver (TimedHandler O K)) : TimedDriver O K V :=
  match d.runningHandler with
  | some (.timer k n) => beginRun { s with driver := d } k n
  | _ => { s with driver := d }

/-- The handler has returned, and the driver goes on as `d`. -/
def returned (s : TimedDriver O K V) (d : Driver (TimedHandler O K)) : TimedDriver O K V :=
  match s.driver.runningHandler with
  | some (.timer k n) => { s.endRun k n with driver := d }
  | _ => { s with driver := d }

end TimedDriver

/-- The driver, its timers and what they run with. -/
def timedDriver : Machine (TimedDriver O K V) (TimedAction O K V) where
  init := {}
  step s a :=
    if s.undefined then none
    else
      match a with
      | .register o =>
          ((driver (timedHandler other timerfd)).step s.driver (.register (.other o))).map
            fun d => { s with driver := d }
      | .push k x =>
          match s.driver.phase with
          | .setup | .running _ _ => some (s.push other timerfd k x)
          | _ => none
      | .callRun =>
          ((driver (timedHandler other timerfd)).step s.driver .callRun).map
            fun d => { s with driver := d }
      | .poll revents =>
          ((driver (timedHandler other timerfd)).step s.driver (.poll revents)).map
            fun d => { s with driver := d }
      | .turn =>
          ((driver (timedHandler other timerfd)).step s.driver .turn).map s.turned
      | .handlerReturns =>
          ((driver (timedHandler other timerfd)).step s.driver .handlerReturns).map s.returned

end Model

/-! ### The map of a timer -/

section Map

variable {V : Type} {t : Timer V} {isRegistered isHeld : ℕ → Prop}

/-- The map holds the handlers of a set under their numbers, and all handlers that have been
created have been registered. -/
structure TimerInv (t : Timer V) (isRegistered isHeld : ℕ → Prop) : Prop where
  timer_id : t.timer_id_ = t.created.length
  ids : ∀ (n : ℕ) (me : TimerEventHandler V), t.created[n]? = some me → me.timer_id_ = n
  sorted : t.timer_event_handlers_.Sorted
  entries : ∀ e, e ∈ t.timer_event_handlers_ ↔ ∃ n : ℕ, isHeld n ∧ e = ((n : ℤ), some n)
  registered : ∀ n, isRegistered n ↔ n < t.created.length
  held_registered : ∀ n, isHeld n → isRegistered n

namespace TimerInv

/-- Which handlers are registered and held may be said in other words. -/
theorem congr {isRegistered' isHeld' : ℕ → Prop} (h : TimerInv t isRegistered isHeld)
    (hregistered : ∀ n, isRegistered' n ↔ isRegistered n) (hheld : ∀ n, isHeld' n ↔ isHeld n) :
    TimerInv t isRegistered' isHeld' := by
  obtain rfl : isRegistered' = isRegistered := funext fun n => propext (hregistered n)
  obtain rfl : isHeld' = isHeld := funext fun n => propext (hheld n)
  exact h

/-- The id of the next handler is not in the map. -/
theorem find_next (h : TimerInv t isRegistered isHeld) :
    t.timer_event_handlers_.find OrderedMap.less t.timer_id_ = none := by
  rw [Option.eq_none_iff_forall_ne_some]
  intro p hfind
  obtain ⟨n, hheld, hn⟩ := (h.entries _).mp (h.sorted.find_eq_some_iff.mp hfind)
  have hlt := (h.registered n).mp (h.held_registered n hheld)
  have hid : t.timer_id_ = n := congrArg Prod.fst hn
  have hlen := h.timer_id
  omega

/-- A handler that is held is found under its id. -/
theorem find_held (h : TimerInv t isRegistered isHeld) {n : ℕ} (hheld : isHeld n) :
    t.timer_event_handlers_.find OrderedMap.less (n : ℤ) = some (some n) :=
  h.sorted.find_eq_some_iff.mpr ((h.entries _).mpr ⟨n, hheld, rfl⟩)

/-- A handler is created, put into the map and registered. -/
theorem create (h : TimerInv t isRegistered isHeld) (hfew : t.created.length + 1 < 2 ^ 31)
    (x : V) :
    TimerInv (t.create x)
      (fun n => isRegistered n ∨ n = t.created.length)
      (fun n => isHeld n ∨ n = t.created.length) where
  timer_id := by
    have hnext : ((t.created.length : ℤ) + 1).bmod (2 ^ 32) = t.created.length + 1 :=
      Int.bmod_eq_of_le (by omega) (by omega)
    simp only [Timer.create, List.length_append, List.length_singleton, h.timer_id, increment,
      hnext]
    omega
  ids n me hme := by
    rw [Timer.create] at hme
    rcases Nat.lt_or_ge n t.created.length with hn | hn
    · rw [List.getElem?_append_left hn] at hme
      exact h.ids n me hme
    · rw [List.getElem?_append_right hn, List.getElem?_singleton] at hme
      split_ifs at hme with hzero
      obtain rfl := Option.some.inj hme
      have hid := h.timer_id
      change t.timer_id_ = n
      omega
  sorted := h.sorted.update _ _
  entries := by
    rintro ⟨id, p⟩
    rw [Timer.create, h.sorted.mem_update, h.find_next]
    constructor
    · intro he
      split_ifs at he with hid
      · exact ⟨t.created.length, .inr rfl, by rw [hid, h.timer_id, he]; rfl⟩
      · obtain ⟨n, hheld, heq⟩ := (h.entries _).mp he
        exact ⟨n, .inl hheld, heq⟩
    · rintro ⟨n, hheld | rfl, heq⟩
      · obtain ⟨rfl, rfl⟩ := Prod.ext_iff.mp heq
        have hlt := (h.registered n).mp (h.held_registered n hheld)
        have hid := h.timer_id
        rw [if_neg (by simp only; omega)]
        exact (h.entries _).mpr ⟨n, hheld, rfl⟩
      · obtain ⟨rfl, rfl⟩ := Prod.ext_iff.mp heq
        rw [if_pos h.timer_id.symm]
        rfl
  registered n := by
    rw [Timer.create, List.length_append, List.length_singleton, h.registered]
    omega
  held_registered n hn := hn.imp_left (h.held_registered n)

/-- A handler takes itself out of the map. -/
theorem erase (h : TimerInv t isRegistered isHeld) (n : ℕ) :
    TimerInv (t.erase n) isRegistered (fun m => isHeld m ∧ m ≠ n) where
  timer_id := h.timer_id
  ids := h.ids
  sorted := h.sorted.erase _
  entries := by
    rintro ⟨id, p⟩
    rw [Timer.erase, OrderedMap.mem_erase, h.entries]
    constructor
    · rintro ⟨⟨m, hheld, heq⟩, hne⟩
      obtain ⟨rfl, rfl⟩ := Prod.ext_iff.mp heq
      exact ⟨m, ⟨hheld, fun hm => hne (by rw [hm])⟩, rfl⟩
    · rintro ⟨m, ⟨hheld, hne⟩, heq⟩
      obtain ⟨rfl, rfl⟩ := Prod.ext_iff.mp heq
      exact ⟨⟨m, hheld, rfl⟩, fun hm => hne (Int.ofNat_inj.mp hm)⟩
  registered := h.registered
  held_registered m hm := h.held_registered m hm.1

end TimerInv

end Map

/-! ### What the driver runs -/

section Running

variable {H : Type}

/-- A turn of the inner loop runs a handler or none. -/
theorem turn_runs (handler : EventHandler H) (d : Driver H) (l : DriverLocals H) :
    ((d.turn handler l).trace = d.trace ∧ (d.turn handler l).runningHandler = none) ∨
      ∃ h p, (d.turn handler l).trace =
          d.trace ++ [DriverEvent.asked h] ++ [DriverEvent.ran h p] ∧
        (d.turn handler l).runningHandler = some h := by
  rw [Driver.turn]
  split
  · exact .inl ⟨rfl, rfl⟩
  · rename_i pollitem _
    split
    · exact .inl ⟨rfl, rfl⟩
    · rename_i h hget
      split
      · exact .inr ⟨h, pollitem, rfl, hget⟩
      · exact .inl ⟨rfl, rfl⟩

end Running

/-! ### The invariant -/

section System

variable {O K V : Type} {other : EventHandler O} {timerfd : K → ℕ → ℤ} [DecidableEq O]
  [DecidableEq K] {s s' : TimedDriver O K V} {d : Driver (TimedHandler O K)} {k : K} {n : ℕ}

/-- The handler has been registered and not been run, or is in its `Run`. -/
def HasTimer (d : Driver (TimedHandler O K)) (k : K) (n : ℕ) : Prop :=
  (.timer k n ∈ registrations d.trace ∧ .timer k n ∉ handlersRun d.trace) ∨
    d.runningHandler = some (.timer k n)

/-- The values pushed into a timer, in order. -/
def pushes (k : K) (log : List (TimerEvent K V)) : List V :=
  log.filterMap fun
    | .pushed j x => if j = k then some x else none
    | _ => none

/-- What is delivered is the value that the handler was created for, it has not been
delivered before, and the handler has not been freed. -/
def DeliversFirst (past : List (TimerEvent K V)) : TimerEvent K V → Prop
  | .delivered k n x =>
      (pushes k past)[n]? = some x ∧ (∀ y, .delivered k n y ∉ past) ∧ .freed k n ∉ past
  | _ => True

/-- **The invariant** of a driver with timers. -/
structure TimedInv (other : EventHandler O) (timerfd : K → ℕ → ℤ) (s : TimedDriver O K V) :
    Prop where
  reachable : (driver (timedHandler other timerfd)).Reachable s.driver
  defined : s.undefined = false
  timers : ∀ k, TimerInv (s.timers k) (fun n => .timer k n ∈ registrations s.driver.trace)
    (HasTimer s.driver k)
  running_ran : ∀ k n, s.driver.runningHandler = some (.timer k n) →
    .timer k n ∈ handlersRun s.driver.trace
  values : ∀ k, pushes k s.log = (s.timers k).created.map TimerEventHandler.x_
  delivered_iff : ∀ k n, (∃ x, .delivered k n x ∈ s.log) ↔
    .timer k n ∈ handlersRun s.driver.trace
  freed_ran : ∀ k n, .freed k n ∈ s.log → .timer k n ∈ handlersRun s.driver.trace
  first : EachAfter DeliversFirst s.log

/-- At the beginning no timer has been set. -/
theorem TimedInv.init : TimedInv other timerfd ({} : TimedDriver O K V) where
  reachable := Machine.Reachable.init
  defined := rfl
  timers k :=
    { timer_id := rfl
      ids := by simp
      sorted := OrderedMap.sorted_nil
      entries := by simp [HasTimer, Driver.runningHandler]
      registered := by simp
      held_registered := by simp [HasTimer, Driver.runningHandler] }
  running_ran k n h := by cases h
  values k := rfl
  delivered_iff k n := by simp [handlersRun]
  freed_ran k n h := by simp at h
  first := EachAfter.nil

/-- A step of the driver that does not run a timer, and does not end the run of one. -/
theorem TimedInv.drive (hinv : TimedInv other timerfd s)
    (hd : (driver (timedHandler other timerfd)).Reachable d)
    (hregistered : ∀ k n, (.timer k n ∈ registrations d.trace) ↔
      .timer k n ∈ registrations s.driver.trace)
    (hran : ∀ k n, (.timer k n ∈ handlersRun d.trace) ↔
      .timer k n ∈ handlersRun s.driver.trace)
    (hrunning : ∀ k n, d.runningHandler = some (.timer k n) ↔
      s.driver.runningHandler = some (.timer k n)) :
    TimedInv other timerfd { s with driver := d } where
  reachable := hd
  defined := hinv.defined
  timers k := (hinv.timers k).congr (hregistered k) fun n => by
    simp only [HasTimer, hregistered, hran, hrunning]
  running_ran k n h := (hran k n).mpr (hinv.running_ran k n ((hrunning k n).mp h))
  values := hinv.values
  delivered_iff k n := (hinv.delivered_iff k n).trans (hran k n).symm
  freed_ran k n h := (hran k n).mpr (hinv.freed_ran k n h)
  first := hinv.first

/-- A handler that has run was registered. -/
theorem TimedInv.ran_registered (hinv : TimedInv other timerfd s)
    (h : .timer k n ∈ handlersRun s.driver.trace) : .timer k n ∈ registrations s.driver.trace :=
  (driverInv_of_reachable hinv.reachable).dispatch.ran_registered _ h

/-- A handler that was registered has been created. -/
theorem TimedInv.exists_created (hinv : TimedInv other timerfd s)
    (h : .timer k n ∈ registrations s.driver.trace) :
    ∃ me, (s.timers k).created[n]? = some me :=
  ⟨_, List.getElem?_eq_getElem (((hinv.timers k).registered n).mp h)⟩

/-! ### Pushing -/

/-- `Timer::push` puts a new handler into the map and registers it. -/
theorem TimedInv.push_eq (hinv : TimedInv other timerfd s) (k : K) (x : V) :
    s.push other timerfd k x =
      { s with
        driver := s.driver.registerEventHandler (timedHandler other timerfd)
          (.timer k (s.timers k).created.length)
        timers := Function.update s.timers k ((s.timers k).create x)
        log := s.log ++ [.pushed k x] } := by
  have hnext := (hinv.timers k).find_next
  have hfind : ((s.timers k).create x).timer_event_handlers_.find OrderedMap.less
      (s.timers k).timer_id_ = some (some (s.timers k).created.length) := by
    rw [Timer.create, OrderedMap.find_update, if_pos rfl, hnext]
    rfl
  simp only [TimedDriver.push, hfind, hnext]
  simp

/-- A push sets one more timer. -/
theorem TimedInv.push (hinv : TimedInv other timerfd s) (x : V)
    (hphase : s.driver.phase = .setup ∨ ∃ l b, s.driver.phase = .running l b)
    (hfew : (s.timers k).created.length + 1 < 2 ^ 31) :
    TimedInv other timerfd (s.push other timerfd k x) := by
  have hnew : .timer k (s.timers k).created.length ∉ registrations s.driver.trace :=
    fun h => (((hinv.timers k).registered _).mp h).ne rfl
  have hnotRun : .timer k (s.timers k).created.length ∉ handlersRun s.driver.trace :=
    fun h => hnew (hinv.ran_registered h)
  have htrace : ∀ j m, TimedHandler.timer j m ∈ registrations (s.driver.trace ++
      [DriverEvent.registered (.timer k (s.timers k).created.length)]) ↔
      .timer j m ∈ registrations s.driver.trace ∨ j = k ∧ m = (s.timers k).created.length := by
    intro j m
    simp
  have hran : handlersRun (s.driver.trace ++
      [DriverEvent.registered (.timer k (s.timers k).created.length)]) =
        handlersRun s.driver.trace := by
    simp [handlersRun]
  rw [hinv.push_eq]
  refine ⟨hinv.reachable.step (driver_step_register hnew hphase), hinv.defined, ?_, ?_, ?_, ?_,
    ?_, hinv.first.append trivial⟩
  · intro j
    by_cases hj : j = k
    · subst hj
      simp only [Function.update_self]
      refine ((hinv.timers j).create hfew x).congr (fun m => ?_) (fun m => ?_)
      · simp [Driver.registerEventHandler]
      · simp only [HasTimer, Driver.registerEventHandler, htrace, hran, true_and]
        constructor
        · rintro (⟨hreg | rfl, hnotRun⟩ | hrunning)
          · exact .inl (.inl ⟨hreg, hnotRun⟩)
          · exact .inr rfl
          · exact .inl (.inr hrunning)
        · rintro ((⟨hreg, hnotRun⟩ | hrunning) | rfl)
          · exact .inl ⟨.inl hreg, hnotRun⟩
          · exact .inr hrunning
          · exact .inl ⟨.inr rfl, hnotRun⟩
    · simp only [Function.update_of_ne hj]
      have hregs : ∀ m, TimedHandler.timer j m ∈ registrations (s.driver.trace ++
          [DriverEvent.registered (.timer k (s.timers k).created.length)]) ↔
          .timer j m ∈ registrations s.driver.trace := by
        intro m
        rw [htrace, or_iff_left (fun h => hj h.1)]
      refine (hinv.timers j).congr hregs (fun m => ?_)
      simp only [HasTimer, Driver.registerEventHandler, hregs, hran]
      rfl
  · intro j m hrunning
    rw [Driver.registerEventHandler, hran]
    exact hinv.running_ran j m hrunning
  · intro j
    by_cases hj : j = k
    · subst hj
      have hvalues := hinv.values j
      simp only [pushes] at hvalues
      simp [pushes, Function.update_self, Timer.create, hvalues]
    · have hvalues := hinv.values j
      simp only [pushes] at hvalues
      simp [pushes, Function.update_of_ne hj, Ne.symm hj, hvalues]
  · intro j m
    rw [Driver.registerEventHandler, hran, ← hinv.delivered_iff]
    simp
  · intro j m hfreed
    rw [Driver.registerEventHandler, hran]
    exact hinv.freed_ran j m (by simpa using hfreed)

/-! ### Running a timer -/

/-- The `Run` of a timer begins. -/
theorem TimedInv.beginRun (hinv : TimedInv other timerfd s)
    (hd : (driver (timedHandler other timerfd)).Reachable d) {p : PollItem}
    (htrace : d.trace = s.driver.trace ++ [DriverEvent.asked (.timer k n)] ++
      [DriverEvent.ran (.timer k n) p])
    (hidle : s.driver.runningHandler = none)
    (hrunning : d.runningHandler = some (.timer k n)) :
    TimedInv other timerfd (TimedDriver.beginRun { s with driver := d } k n) := by
  have hdispatch := (driverInv_of_reachable hd).dispatch
  have hregs : registrations d.trace = registrations s.driver.trace := by simp [htrace]
  have hran : handlersRun d.trace = handlersRun s.driver.trace ++ [TimedHandler.timer k n] := by
    simp [htrace, handlersRun]
  have hnotRun : .timer k n ∉ handlersRun s.driver.trace := by
    have hcalls := hdispatch.calls
    rw [htrace, eachAfter_append] at hcalls
    simpa [handlersRun] using hcalls.2 (.timer k n) rfl rfl
  have hreg : .timer k n ∈ registrations s.driver.trace := by
    rw [← hregs]
    exact hdispatch.ran_registered _ (by simp [hran])
  obtain ⟨me, hme⟩ := hinv.exists_created hreg
  have hbegin : TimedDriver.beginRun { s with driver := d } k n =
      { s with driver := d, log := s.log ++ [.delivered k n me.x_] } := by
    simp [TimedDriver.beginRun, hme]
  rw [hbegin]
  refine ⟨hd, hinv.defined, ?_, ?_, ?_, ?_, ?_, ?_⟩
  · intro j
    refine (hinv.timers j).congr (fun m => by rw [hregs]) (fun m => ?_)
    simp only [HasTimer, hregs, hran, hrunning, hidle, List.mem_append, List.mem_singleton,
      Option.some.injEq, reduceCtorEq, or_false]
    -- The handler leaves the one side of the disjunction and joins the other.
    by_cases hjm : (TimedHandler.timer j m : TimedHandler O K) = .timer k n
    · rw [hjm]
      simp [hreg, hnotRun]
    · simp [hjm, Ne.symm hjm]
  · intro j m hrunning'
    rw [hrunning] at hrunning'
    rw [hran, ← Option.some.inj hrunning']
    exact List.mem_append_right _ (List.mem_singleton.mpr rfl)
  · intro j
    rw [← hinv.values j]
    simp [pushes]
  · intro j m
    rw [hran, List.mem_append, List.mem_singleton, ← hinv.delivered_iff]
    simp only [List.mem_append, List.mem_singleton, TimerEvent.delivered.injEq, exists_or,
      TimedHandler.timer.injEq]
    simp
  · intro j m hfreed
    rw [hran]
    exact List.mem_append_left _ (hinv.freed_ran j m (by simpa using hfreed))
  · refine hinv.first.append ⟨?_, ?_, ?_⟩
    · rw [hinv.values, List.getElem?_map, hme]
      rfl
    · exact fun y hy => hnotRun ((hinv.delivered_iff k n).mp ⟨y, hy⟩)
    · exact fun hfreed => hnotRun (hinv.freed_ran k n hfreed)

/-- The `Run` of a timer ends: the handler finds itself in the map, takes itself out, and
frees itself. -/
theorem TimedInv.endRun_eq (hinv : TimedInv other timerfd s)
    (hrunning : s.driver.runningHandler = some (.timer k n)) :
    s.endRun k n =
      { s with
        timers := Function.update s.timers k ((s.timers k).erase n)
        log := s.log ++ [.freed k n] } := by
  obtain ⟨me, hme⟩ := hinv.exists_created (hinv.ran_registered (hinv.running_ran k n hrunning))
  have hid := (hinv.timers k).ids n me hme
  have hfind := (hinv.timers k).find_held (.inr hrunning)
  simp only [TimedDriver.endRun, hme, hid, hfind]
  simp

/-- A handler returns, and its timer is freed. -/
theorem TimedInv.endRun (hinv : TimedInv other timerfd s)
    (hd : (driver (timedHandler other timerfd)).Reachable d)
    (htrace : d.trace = s.driver.trace) (hidle : d.runningHandler = none)
    (hrunning : s.driver.runningHandler = some (.timer k n)) :
    TimedInv other timerfd { s.endRun k n with driver := d } := by
  have hran := hinv.running_ran k n hrunning
  rw [hinv.endRun_eq hrunning]
  refine ⟨hd, hinv.defined, ?_, ?_, ?_, ?_, ?_, hinv.first.append trivial⟩
  · intro j
    by_cases hj : j = k
    · subst hj
      simp only [Function.update_self]
      refine ((hinv.timers j).erase n).congr (fun m => by rw [htrace]) (fun m => ?_)
      simp only [HasTimer, htrace, hidle, hrunning, Option.some.injEq, reduceCtorEq, or_false,
        TimedHandler.timer.injEq, true_and]
      constructor
      · rintro ⟨hreg, hnotRun⟩
        exact ⟨.inl ⟨hreg, hnotRun⟩, fun hm => hnotRun (hm ▸ hran)⟩
      · rintro ⟨hheld | rfl, hm⟩
        · exact hheld
        · exact absurd rfl hm
    · simp only [Function.update_of_ne hj]
      refine (hinv.timers j).congr (fun m => by rw [htrace]) (fun m => ?_)
      simp [HasTimer, htrace, hidle, hrunning, Ne.symm hj]
  · intro j m hrunning'
    rw [hidle] at hrunning'
    cases hrunning'
  · intro j
    have hcreated : (Function.update s.timers k ((s.timers k).erase n) j).created =
        (s.timers j).created := by
      by_cases hj : j = k
      · subst hj
        rw [Function.update_self]
        rfl
      · rw [Function.update_of_ne hj]
    rw [hcreated, ← hinv.values j]
    simp [pushes]
  · intro j m
    rw [htrace, ← hinv.delivered_iff]
    simp
  · intro j m hfreed
    rw [htrace]
    rcases List.mem_append.mp hfreed with hfreed | hfreed
    · exact hinv.freed_ran j m hfreed
    · obtain ⟨rfl, rfl⟩ : j = k ∧ m = n := by simpa using hfreed
      exact hran

/-! ### Whole runs -/

/-- One step of a driver with timers. -/
theorem timedDriver_step_cases {a : TimedAction O K V}
    (hs : (timedDriver other timerfd).step s a = some s') :
    (∃ b d, (b = .callRun ∨ (∃ revents, b = .poll revents) ∨ ∃ o, b = .register (.other o)) ∧
      (driver (timedHandler other timerfd)).step s.driver b = some d ∧
      s' = { s with driver := d }) ∨
    (∃ k x, (s.driver.phase = .setup ∨ ∃ l b, s.driver.phase = .running l b) ∧
      s' = s.push other timerfd k x) ∨
    (∃ d, (driver (timedHandler other timerfd)).step s.driver .turn = some d ∧
      s' = s.turned d) ∨
    ∃ d, (driver (timedHandler other timerfd)).step s.driver .handlerReturns = some d ∧
      s' = s.returned d := by
  simp only [timedDriver] at hs
  split_ifs at hs
  cases a with
  | register o =>
      obtain ⟨d, hd, rfl⟩ := Option.map_eq_some_iff.mp hs
      exact .inl ⟨_, d, .inr (.inr ⟨o, rfl⟩), hd, rfl⟩
  | push k x =>
      simp only at hs
      split at hs
      · rename_i hphase
        exact .inr (.inl ⟨k, x, .inl hphase, (Option.some.inj hs).symm⟩)
      · rename_i l b hphase
        exact .inr (.inl ⟨k, x, .inr ⟨l, b, hphase⟩, (Option.some.inj hs).symm⟩)
      · cases hs
  | callRun =>
      obtain ⟨d, hd, rfl⟩ := Option.map_eq_some_iff.mp hs
      exact .inl ⟨_, d, .inl rfl, hd, rfl⟩
  | poll revents =>
      obtain ⟨d, hd, rfl⟩ := Option.map_eq_some_iff.mp hs
      exact .inl ⟨_, d, .inr (.inl ⟨revents, rfl⟩), hd, rfl⟩
  | turn =>
      obtain ⟨d, hd, rfl⟩ := Option.map_eq_some_iff.mp hs
      exact .inr (.inr (.inl ⟨d, hd, rfl⟩))
  | handlerReturns =>
      obtain ⟨d, hd, rfl⟩ := Option.map_eq_some_iff.mp hs
      exact .inr (.inr (.inr ⟨d, hd, rfl⟩))

/-- The log is only extended. -/
theorem timedDriver_step_log {a : TimedAction O K V}
    (hs : (timedDriver other timerfd).step s a = some s') : s.log <+: s'.log := by
  obtain ⟨b, d, -, -, rfl⟩ | ⟨k, x, -, rfl⟩ | ⟨d, -, rfl⟩ | ⟨d, -, rfl⟩ :=
    timedDriver_step_cases hs
  · exact List.prefix_rfl
  · rw [TimedDriver.push]
    split
    · rw [List.append_assoc]
      exact List.prefix_append _ _
    · exact List.prefix_rfl
  · rw [TimedDriver.turned]
    split
    · rw [TimedDriver.beginRun]
      split
      · exact List.prefix_append _ _
      · exact List.prefix_rfl
    · exact List.prefix_rfl
  · rw [TimedDriver.returned]
    split
    · rw [TimedDriver.endRun]
      split
      · split
        · exact List.prefix_append _ _
        · exact List.prefix_rfl
      · exact List.prefix_rfl
    · exact List.prefix_rfl

/-- Less than `2 ^ 31` values have been pushed into each timer. -/
def FewPushes (log : List (TimerEvent K V)) : Prop :=
  ∀ k, (pushes k log).length < 2 ^ 31

/-- A beginning of a log with few pushes has few pushes. -/
theorem FewPushes.mono {log log' : List (TimerEvent K V)} (h : FewPushes log')
    (hlog : log <+: log') : FewPushes log :=
  fun k => (hlog.filterMap _).length_le.trans_lt (h k)

/-- The driver is not in a handler. -/
theorem runningHandler_eq_none {H : Type} {d : Driver H}
    (h : ∀ l b, d.phase ≠ .running l b) : d.runningHandler = none := by
  cases hphase : d.phase with
  | running l b => exact absurd hphase (h l b)
  | _ => simp [Driver.runningHandler, hphase]

/-- A turn of the driver. -/
theorem TimedInv.turned (hinv : TimedInv other timerfd s)
    (hs : (driver (timedHandler other timerfd)).step s.driver .turn = some d) :
    TimedInv other timerfd (s.turned d) := by
  have hd := hinv.reachable.step hs
  obtain ⟨_, h, -⟩ | ⟨h, -⟩ | ⟨_, h, -⟩ | ⟨l, -, hphase, rfl⟩ | ⟨_, _, h, -⟩ :=
    driver_step_cases hs
  · cases h
  · cases h
  · cases h
  · have hidle : s.driver.runningHandler = none := by simp [Driver.runningHandler, hphase]
    obtain ⟨htrace, hrunning⟩ | ⟨h, p, htrace, hrunning⟩ :=
      turn_runs (timedHandler other timerfd) s.driver l
    · rw [TimedDriver.turned, hrunning]
      exact hinv.drive hd (fun k n => by rw [htrace]) (fun k n => by rw [htrace])
        (fun k n => by rw [hrunning, hidle])
    · rw [TimedDriver.turned, hrunning]
      cases h with
      | timer k n => exact hinv.beginRun hd htrace hidle hrunning
      | other o =>
          refine hinv.drive hd (fun k n => by simp [htrace]) (fun k n => ?_) (fun k n => ?_)
          · simp [htrace, handlersRun]
          · simp [hrunning, hidle]
  · cases h

/-- A handler returns. -/
theorem TimedInv.returned (hinv : TimedInv other timerfd s)
    (hs : (driver (timedHandler other timerfd)).step s.driver .handlerReturns = some d) :
    TimedInv other timerfd (s.returned d) := by
  have hd := hinv.reachable.step hs
  obtain ⟨_, h, -⟩ | ⟨h, -⟩ | ⟨_, h, -⟩ | ⟨_, h, -⟩ | ⟨l, b, -, -, rfl⟩ := driver_step_cases hs
  · cases h
  · cases h
  · cases h
  · cases h
  · rw [TimedDriver.returned]
    split
    · rename_i k n hrunning
      exact hinv.endRun hd rfl rfl hrunning
    · rename_i hnot
      refine hinv.drive hd (fun _ _ => Iff.rfl) (fun _ _ => Iff.rfl) (fun k n => ?_)
      exact ⟨fun h => (by cases h), fun h => absurd h (hnot k n)⟩

/-- Another step of the driver. -/
theorem TimedInv.driven (hinv : TimedInv other timerfd s)
    {b : DriverAction (TimedHandler O K)}
    (hb : b = .callRun ∨ (∃ revents, b = .poll revents) ∨ ∃ o, b = .register (.other o))
    (hs : (driver (timedHandler other timerfd)).step s.driver b = some d) :
    TimedInv other timerfd { s with driver := d } := by
  have hd := hinv.reachable.step hs
  obtain ⟨h, rfl, -, -, rfl⟩ | ⟨rfl, hphase, rfl⟩ | ⟨revents, rfl, hphase, -, rfl⟩ |
    ⟨_, rfl, -⟩ | ⟨_, _, rfl, -⟩ := driver_step_cases hs
  · obtain h' | ⟨_, h'⟩ | ⟨o, ho⟩ := hb
    · cases h'
    · cases h'
    · obtain rfl : h = .other o := by simpa using ho
      exact hinv.drive hd (fun k n => by simp [Driver.registerEventHandler])
        (fun k n => by simp [Driver.registerEventHandler, handlersRun]) (fun _ _ => Iff.rfl)
  · refine hinv.drive hd (fun _ _ => Iff.rfl) (fun _ _ => Iff.rfl) (fun k n => ?_)
    simp [Driver.runningHandler, hphase]
  · refine hinv.drive hd (fun k n => by simp [Driver.beginIteration])
      (fun k n => by simp [Driver.beginIteration, handlersRun]) (fun k n => ?_)
    simp [Driver.runningHandler, Driver.beginIteration, hphase]
  · simp at hb
  · simp at hb

/-- **The invariant** holds in every state of every run with few pushes. -/
theorem timedInv_of_reachable (hr : (timedDriver other timerfd).Reachable s)
    (hfew : FewPushes s.log) : TimedInv other timerfd s := by
  revert hfew
  refine hr.invariant (I := fun s => FewPushes s.log → TimedInv other timerfd s)
    (fun _ => TimedInv.init) ?_
  intro s a s' _ hinv hs hfew
  have hinv := hinv (hfew.mono (timedDriver_step_log hs))
  obtain ⟨b, d, hb, hd, rfl⟩ | ⟨k, x, hphase, rfl⟩ | ⟨d, hd, rfl⟩ | ⟨d, hd, rfl⟩ :=
    timedDriver_step_cases hs
  · exact hinv.driven hb hd
  · refine hinv.push x hphase ?_
    have hk := hfew k
    rw [hinv.push_eq] at hk
    have hvalues := congrArg List.length (hinv.values k)
    simp only [pushes, List.filterMap_append, List.length_append, List.length_map] at hk hvalues
    simpa [hvalues] using hk
  · exact hinv.turned hd
  · exact hinv.returned hd

/-! ### Delivery -/

/-- What is promised of a driver with timers in a state. -/
structure DeliversTimers (s : TimedDriver O K V) : Prop where
  /-- Between the runs of handlers, the keys of the map of a timer are the ids of its
  handlers that are registered with the driver. -/
  keys : (∀ l b, s.driver.phase ≠ .running l b) → ∀ k id,
    id ∈ (s.timers k).timer_event_handlers_.keys ↔
      ∃ n me, .timer k n ∈ s.driver.held ∧ (s.timers k).created[n]? = some me ∧
        me.timer_id_ = id
  /-- A handler that is running is found under its id. -/
  lookup : ∀ k n, s.driver.runningHandler = some (.timer k n) →
    ∃ me, (s.timers k).created[n]? = some me ∧
      (s.timers k).timer_event_handlers_.find OrderedMap.less me.timer_id_ = some (some n)
  /-- No pointer has been used that must not be. -/
  defined : s.undefined = false
  /-- A value is delivered once, and by a handler that has not been freed. -/
  first : EachAfter DeliversFirst s.log
  /-- At the head of the loop, what has been reported has been delivered. -/
  reported : s.driver.phase = .head → ∀ ready, .polled ready ∈ s.driver.trace →
    ∀ k n p, (.timer k n, p) ∈ ready → ∃ x, .delivered k n x ∈ s.log

/-- **Timers deliver once.** In every state of every run with less than `2 ^ 31` pushes into
each timer, whenever these pushes happen and whenever the timers expire. -/
theorem timers_deliver_once (hr : (timedDriver other timerfd).Reachable s)
    (hfew : FewPushes s.log) : DeliversTimers s := by
  have hinv := timedInv_of_reachable hr hfew
  have hdispatch := (driverInv_of_reachable hinv.reachable).dispatch
  refine ⟨?_, ?_, hinv.defined, hinv.first, ?_⟩
  · intro hphase k id
    have hidle := runningHandler_eq_none hphase
    have hheld : ∀ n, HasTimer s.driver k n ↔ .timer k n ∈ s.driver.held := by
      intro n
      rw [hdispatch.mem_held, Live, HasTimer, hidle]
      simp [timedHandler]
    have hentries : ∀ e, e ∈ (s.timers k).timer_event_handlers_ ↔
        ∃ n : ℕ, .timer k n ∈ s.driver.held ∧ e = ((n : ℤ), some n) := by
      simpa only [hheld] using (hinv.timers k).entries
    constructor
    · intro hid
      obtain ⟨e, he, rfl⟩ := List.mem_map.mp hid
      obtain ⟨n, hn, rfl⟩ := (hentries e).mp he
      obtain ⟨me, hme⟩ := hinv.exists_created ((hdispatch.mem_held _).mp hn).1
      exact ⟨n, me, hn, hme, (hinv.timers k).ids n me hme⟩
    · rintro ⟨n, me, hn, hme, rfl⟩
      rw [(hinv.timers k).ids n me hme]
      exact List.mem_map_of_mem ((hentries _).mpr ⟨n, hn, rfl⟩)
  · intro k n hrunning
    obtain ⟨me, hme⟩ := hinv.exists_created (hinv.ran_registered (hinv.running_ran k n hrunning))
    refine ⟨me, hme, ?_⟩
    rw [(hinv.timers k).ids n me hme]
    exact (hinv.timers k).find_held (.inr hrunning)
  · intro hphase ready hpoll k n p hr
    have hran := hdispatch.reported ready hpoll _ hr
    rw [Driver.pending, hphase, or_iff_left List.not_mem_nil] at hran
    exact (hinv.delivered_iff k n).mpr (List.mem_map_of_mem hran)

end System

/-- A driver with one timer and no other handler. -/
def oneTimer : Machine (TimedDriver Empty Unit ℕ) (TimedAction Empty Unit ℕ) :=
  timedDriver ⟨Empty.elim, Empty.elim⟩ fun _ n => n

/-- The timer expires, and its downstream pushes another value into it. -/
def pushesBack : List (TimedAction Empty Unit ℕ) :=
  [.push () 5, .callRun, .poll [1], .turn, .push () 6, .handlerReturns, .turn]

/-- In the run `pushesBack` the first value has been delivered, and the second is waiting. -/
theorem timers_deliver_once_pushes_back : ∃ s,
    oneTimer.run oneTimer.init pushesBack = some s ∧
      s.log = [.pushed () 5, .delivered () 0 5, .pushed () 6, .freed () 0] ∧
      (s.timers ()).timer_event_handlers_.keys = [1] ∧ DeliversTimers s := by
  have hrun : (oneTimer.run oneTimer.init pushesBack).map (fun s =>
      (s.log, (s.timers ()).timer_event_handlers_.keys)) =
      some ([.pushed () 5, .delivered () 0 5, .pushed () 6, .freed () 0], [1]) := by
    decide
  obtain ⟨s, hs, heq⟩ := Option.map_eq_some_iff.mp hrun
  obtain ⟨hlog, hkeys⟩ : s.log = [.pushed () 5, .delivered () 0 5, .pushed () 6, .freed () 0] ∧
      (s.timers ()).timer_event_handlers_.keys = [1] := Prod.ext_iff.mp heq
  refine ⟨s, hs, hlog, hkeys, timers_deliver_once (Machine.reachable_of_run hs) ?_⟩
  intro k
  rw [hlog]
  simp [pushes]

end LatticeFlow
