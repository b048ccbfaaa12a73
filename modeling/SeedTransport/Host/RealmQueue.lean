import SeedTransport.Util

set_option autoImplicit false

namespace SeedTransport

/-! The queue in front of a realm (`realm-queue.ts`): `serializeCalls` over the entry tier of
`createDeadlineQueue`. The loop of `enterNext` goes turn by turn here, and an invocation that
`invoke` has not returned from is on the stack: the guest in it may call back into the
queue. -/

/-- A duration as it is passed. -/
inductive Ms where
  | nan
  | fin (q : ℚ)
  | inf
  deriving DecidableEq

/-- `Math.min` -/
def Ms.min : Ms → Ms → Ms
  | .nan, _ => .nan
  | _, .nan => .nan
  | .inf, b => b
  | a, .inf => a
  | .fin a, .fin b => .fin (Min.min a b)

/-- A remaining duration as a point in time; `none` is `Infinity`. -/
def deadlineAt (now : ℚ) : Ms → Except String (Option ℚ)
  | .inf => .ok none
  | .nan => .error "guest: handoff deadline must be a non-negative finite duration or Infinity"
  | .fin q =>
    if q < 0 then
      .error "guest: handoff deadline must be a non-negative finite duration or Infinity"
    else .ok (some (now + q))

/-- How a caller is answered. -/
inductive Answer where
  | value
  | failed
  | late
  | notReady
  | threw
  | badDeadline
  deriving DecidableEq

/-- Where the invocation of a call stands. While it is on the stack its `Invocation` is not
recorded, though its answer may be there; `ended` is settled or cancelled, with its caller
not told. -/
inductive Stand where
  | unstarted
  | onStack (answered : Bool)
  | live (deferred : Bool)
  | ended
  | done
  deriving DecidableEq

structure CallEntry where
  at' : Option ℚ
  settled : Bool
  stand : Stand
  deriving DecidableEq

/-- What runs: nothing, the loop of `enterNext`, or an `invoke` inside it. -/
inductive Frame where
  | idle
  | looping
  | invoking (i : Nat)
  deriving DecidableEq

/-- `pending` and `timerAt` are the deadline queue's, `releases` the microtasks that give the
realm back for a deferred invocation. Calls are named in the order they are made. The last
two are for an observer: the callers' answers, and the invocations with when they began. -/
structure RealmQueue where
  defaultDeadlineMs : Ms
  now : ℚ
  ready : Bool
  calls : Nat
  entries : Nat → CallEntry
  waiting : List Nat
  running : Option Nat
  pumping : Bool
  pending : List Nat
  timerAt : Option ℚ
  releases : List Nat
  stack : Frame
  answers : List (Nat × Answer)
  entered : List (Nat × ℚ)

namespace RealmQueue

def create (defaultDeadlineMs : Ms) : RealmQueue where
  defaultDeadlineMs := defaultDeadlineMs
  now := 0
  ready := true
  calls := 0
  entries := fun _ => ⟨none, false, .unstarted⟩
  waiting := []
  running := none
  pumping := false
  pending := []
  timerAt := none
  releases := []
  stack := .idle
  answers := []
  entered := []

def setEntry (i : Nat) (e : CallEntry) (q : RealmQueue) : RealmQueue :=
  { q with entries := Function.update q.entries i e }

def setStand (i : Nat) (s : Stand) (q : RealmQueue) : RealmQueue :=
  q.setEntry i { q.entries i with stand := s }

/-! ### Settling and giving the realm on -/

/-- Settle the caller once. -/
def finish (i : Nat) (a : Answer) (q : RealmQueue) : RealmQueue :=
  if (q.entries i).settled then q
  else
    { q.setEntry i { q.entries i with settled := true } with
      pending := q.pending.erase i
      answers := q.answers ++ [(i, a)] }

def pump (q : RealmQueue) : RealmQueue :=
  if q.pumping = true ∨ q.running ≠ none ∨ q.waiting = [] then q else { q with pumping := true }

def release (i : Nat) (q : RealmQueue) : RealmQueue :=
  if q.running = some i then pump { q with running := none } else q

/-- `this.invocation?.cancel(err)`: there is nothing to cancel before it is recorded. -/
def cancel (i : Nat) (q : RealmQueue) : RealmQueue :=
  match (q.entries i).stand with
  | .live _ => q.setStand i .ended
  | _ => q

def expire (i : Nat) (q : RealmQueue) : RealmQueue := ((q.finish i .late).cancel i).release i

/-! ### The deadline queue -/

/-- Due within a millisecond. -/
def isDue (q : RealmQueue) (i : Nat) : Bool :=
  match (q.entries i).at' with
  | none => false
  | some t => decide (t - q.now < 1)

def armOne (q : RealmQueue) (i : Nat) : RealmQueue :=
  if q.isDue i then expire i { q with pending := q.pending.erase i } else q

def MAX_TIMEOUT : ℚ := 0x7fffffff

/-- The timer for the earliest deadline left. -/
def setTimer (q : RealmQueue) : RealmQueue :=
  match (q.pending.filterMap fun i => (q.entries i).at').min? with
  | none => { q with timerAt := none }
  | some soonest => { q with timerAt := some (min soonest (q.now + MAX_TIMEOUT)) }

/-- Expire what is due, then wait for the earliest left. -/
def arm (q : RealmQueue) : RealmQueue := (q.pending.foldl armOne q).setTimer

/-- Whether a deadline moves the timer. -/
def rearms (q : RealmQueue) (t : ℚ) : Bool :=
  match q.timerAt with
  | none => true
  | some timer => decide (t < timer - 1)

def add (i : Nat) (t : ℚ) (q : RealmQueue) : RealmQueue :=
  let q' := { q with pending := q.pending ++ [i] }
  if q.rearms t then q'.arm else q'

/-! ### Calls -/

/-- A call that is refused where it is made. -/
def reject (i : Nat) (a : Answer) (q : RealmQueue) : RealmQueue :=
  { q.setEntry i ⟨none, true, .unstarted⟩ with answers := q.answers ++ [(i, a)] }

/-- Queue an entry, unless `add` has expired it. -/
def enqueue (i : Nat) (q : RealmQueue) : RealmQueue :=
  if (q.entries i).settled then q else pump { q with waiting := q.waiting ++ [i] }

/-- The deadline of a call: a callee may tighten its ceiling, never mint time. -/
def deadlineOf (q : RealmQueue) (supplied : Option Ms) : Except String (Option ℚ) :=
  deadlineAt q.now (Ms.min (supplied.getD q.defaultDeadlineMs) q.defaultDeadlineMs)

def call (supplied : Option Ms) (q : RealmQueue) : RealmQueue :=
  let i := q.calls
  let q' := { q with calls := q.calls + 1 }
  if q.ready = false then q'.reject i .notReady
  else
    match q.deadlineOf supplied with
    | .error _ => q'.reject i .badDeadline
    | .ok none => (q'.setEntry i ⟨none, false, .unstarted⟩).enqueue i
    | .ok (some t) => ((q'.setEntry i ⟨some t, false, .unstarted⟩).add i t).enqueue i

/-! ### The loop -/

/-- Whether the clock has passed a deadline. -/
def isPast (q : RealmQueue) (i : Nat) : Bool :=
  match (q.entries i).at' with
  | none => false
  | some t => decide (t ≤ q.now)

/-- One turn of the loop of `enterNext`. -/
def loopTurn (q : RealmQueue) : RealmQueue :=
  match q.running, q.waiting with
  | none, i :: waiting =>
    let q := { q with waiting := waiting }
    if (q.entries i).settled then q
    else if q.isPast i then q.expire i
    else if q.ready = false then q.finish i .notReady
    else
      { q.setStand i (.onStack false) with
        running := some i
        stack := .invoking i
        entered := q.entered ++ [(i, q.now)] }
  | _, _ => { q with stack := .idle }

/-- `invoke` returns: the invocation is recorded, and a deferred one gives the realm back on
the next turn. -/
def returned (i : Nat) (deferred : Bool) (q : RealmQueue) : RealmQueue :=
  let stand := match (q.entries i).stand with
    | .onStack true => .ended
    | _ => .live deferred
  { q.setStand i stand with
    stack := .looping
    releases := if deferred then q.releases ++ [i] else q.releases }

def threw (i : Nat) (q : RealmQueue) : RealmQueue :=
  { (({ q with running := none }.finish i .threw).setStand i .done) with stack := .looping }

/-- An invocation is answered or fails, in the guest or with its realm. -/
def settleStand : Stand → Stand
  | .onStack _ => .onStack true
  | .live _ => .ended
  | s => s

def dispose (q : RealmQueue) : RealmQueue :=
  { q with
    ready := false
    pending := []
    timerAt := none
    entries := fun i => { q.entries i with stand := settleStand (q.entries i).stand } }

/-- The caller is told of its invocation's end. -/
def told (i : Nat) (ok : Bool) (q : RealmQueue) : RealmQueue :=
  ((q.finish i (if ok then .value else .failed)).setStand i .done).release i

/-- Calls, answers and the realm's end may come while a guest runs; the others are turns of
the event loop, or of the loop itself. -/
inductive Event where
  | call (supplied : Option Ms)
  | elapse (ms : ℚ)
  | timer
  | enterNext
  | loopTurn
  | returned (deferred : Bool)
  | threw
  | result (i : Nat)
  | told (i : Nat) (ok : Bool)
  | released (i : Nat)
  | dispose

def step (q : RealmQueue) : Event → RealmQueue
  | .call supplied => if q.stack = .looping then q else q.call supplied
  | .elapse ms => { q with now := q.now + max ms 0 }
  | .timer => if q.stack = .idle ∧ q.timerAt ≠ none then q.arm else q
  | .enterNext =>
    if q.stack = .idle ∧ q.pumping = true then { q with pumping := false, stack := .looping } else q
  | .loopTurn => if q.stack = .looping then q.loopTurn else q
  | .returned deferred =>
    match q.stack with
    | .invoking i => q.returned i deferred
    | _ => q
  | .threw =>
    match q.stack with
    | .invoking i => q.threw i
    | _ => q
  | .result i =>
    if q.stack = .looping then q else q.setStand i (settleStand (q.entries i).stand)
  | .told i ok => if q.stack = .idle ∧ (q.entries i).stand = .ended then q.told i ok else q
  | .released i =>
    if q.stack = .idle ∧ i ∈ q.releases then { q with releases := q.releases.erase i }.release i
    else q
  | .dispose => if q.stack = .looping then q else q.dispose

def run (q : RealmQueue) (es : List Event) : RealmQueue := es.foldl step q

end RealmQueue

end SeedTransport
