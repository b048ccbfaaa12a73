import SeedTransport.Lib.OrdMap

set_option autoImplicit false

namespace SeedTransport

/-! The relays a node holds a link to (`transport/src/relay.js`). Between two awaits of the
source nothing else runs: an event here is what runs up to the next await, and what follows an
await is left among the tasks. -/

/-- A relay as an address names it (`relayAddr`), without its contact secret. -/
structure RelayAddr (Origin Key : Type) where
  origin : Origin
  key : Key
  deriving DecidableEq

/-- What waits on a relay link: `dialHome`, or a `call` of a peer through it. -/
inductive RelayCaller where
  | dialHome
  | call
  deriving DecidableEq

/-- What the relays read of a `Link`, and write: `keep` sets its `idleMs` to 0. -/
structure RelayLink where
  linkId : Nat
  idles : Bool
  authed : Bool
  closed : Bool
  deriving DecidableEq

/-- `upSince` is none for `Infinity`. `dialing` while `open` awaits `netLinkOpen`, for the
`conn` that `caller` awaits. `answered` is for an observer: the link id the dial came back
with. -/
structure RelayConn (Origin Key : Type) where
  origin : Origin
  key : Key
  link : Option RelayLink
  registered : Bool
  upSince : Option ℚ
  gone : Bool
  waiters : List (Nat × RelayCaller)
  dialing : Bool
  caller : RelayCaller
  answered : Option Nat
  deriving DecidableEq

/-- What is left of an async function of the source after an await: `conn` has answered, `ready`
has settled, a `call` waits for its ticket, its record or its splice. -/
inductive RelayTask where
  | connected (c : Option Nat) (caller : RelayCaller)
  | readied (c : Nat) (caller : RelayCaller) (up : Bool)
  | ticket (c : Nat)
  | sending (c : Nat)
  | splicing
  deriving DecidableEq

/-- `made` holds every `RelayConn` there was, and the map names them by their place in it.
`asked`, `settled` and `netLinkClosed` are for an observer: the `RelayConn` each `ready` waits
on, what its promise was settled with, and the link ids asked to close. -/
structure Relays (Origin Key : Type) where
  conns : OrdMap Origin Nat
  home : Option Origin
  homeAddr : Option (RelayAddr Origin Key)
  retryAt : Option ℚ
  retryMs : ℚ
  made : List (RelayConn Origin Key)
  tasks : List RelayTask
  asked : List Nat
  settled : List (Nat × Bool)
  netLinkClosed : List Nat

/-- `now()` and `Math.random()` in one event. -/
structure Moment where
  now : ℚ
  random : ℚ
  deriving DecidableEq

def RELAY_RETRY_MS : ℚ := 2000

def RELAY_RETRY_MAX_MS : ℚ := 60000

section Model

variable {Origin Key : Type}

/-- The constructor, with `open` called. -/
def RelayConn.new (addr : RelayAddr Origin Key) (caller : RelayCaller) :
    RelayConn Origin Key where
  origin := addr.origin
  key := addr.key
  link := none
  registered := false
  upSince := none
  gone := false
  waiters := []
  dialing := true
  caller := caller
  answered := none

/-- The link is there and has not ended. -/
def RelayConn.Up (r : RelayConn Origin Key) : Prop := ∃ l, r.link = some l ∧ l.closed = false

instance (r : RelayConn Origin Key) : Decidable r.Up :=
  match h : r.link with
  | none => isFalse (by simp [RelayConn.Up, h])
  | some l => decidable_of_iff (l.closed = false) (by simp [RelayConn.Up, h])

def RelayConn.mapLink (r : RelayConn Origin Key) (f : RelayLink → RelayLink) :
    RelayConn Origin Key :=
  { r with link := r.link.map f }

/-- `onLinkClosed`'s own part of it. -/
def RelayConn.leave (r : RelayConn Origin Key) : RelayConn Origin Key :=
  { r with gone := true, waiters := [] }

namespace Relays

def new : Relays Origin Key where
  conns := .empty
  home := none
  homeAddr := none
  retryAt := none
  retryMs := RELAY_RETRY_MS
  made := []
  tasks := []
  asked := []
  settled := []
  netLinkClosed := []

def modify (s : Relays Origin Key) (c : Nat) (f : RelayConn Origin Key → RelayConn Origin Key) :
    Relays Origin Key :=
  { s with made := s.made.modify c f }

def later (s : Relays Origin Key) (t : RelayTask) : Relays Origin Key :=
  { s with tasks := s.tasks ++ [t] }

/-- `settle(up)` of each waiter. -/
def settle (s : Relays Origin Key) (c : Nat) (ws : List (Nat × RelayCaller)) (up : Bool) :
    Relays Origin Key :=
  { s with
    settled := s.settled ++ ws.map fun w => (w.1, up)
    tasks := s.tasks ++ ws.map fun w => .readied c w.2 up }

/-- `RelayConn.ready`: `c` is told to `caller` once it is known. -/
def ready (s : Relays Origin Key) (c : Nat) (caller : RelayCaller) : Relays Origin Key :=
  match s.made[c]? with
  | none => s
  | some r =>
    if r.registered then s.later (.readied c caller true)
    else if r.gone then s.later (.readied c caller false)
    else
      { s.modify c fun r => { r with waiters := r.waiters ++ [(s.asked.length, caller)] } with
        asked := s.asked ++ [c] }

def keep (s : Relays Origin Key) (c : Nat) : Relays Origin Key :=
  s.modify c fun r => r.mapLink fun l => { l with idles := false }

variable [DecidableEq Origin] [DecidableEq Key]

/-- 0 no relay, 1 registered on it, 2 waiting to (re)connect. -/
def state (s : Relays Origin Key) : Nat :=
  match s.home with
  | none => 0
  | some o =>
    match (s.conns.get o).bind fun c => s.made[c]? with
    | none => 2
    | some r => if r.registered then 1 else 2

def onGone (s : Relays Origin Key) (m : Moment) (c : Nat) : Relays Origin Key :=
  match s.made[c]? with
  | none => s
  | some r =>
    if s.conns.get r.origin ≠ some c then s
    else if s.home ≠ some r.origin then { s with conns := s.conns.delete r.origin }
    else
      let held := r.upSince.any fun up => decide (up < m.now - RELAY_RETRY_MAX_MS)
      let ms := if held then RELAY_RETRY_MS else s.retryMs
      { s with
        conns := s.conns.delete r.origin
        retryAt := some (m.now + ms * (1 + m.random) / 2)
        retryMs := min (2 * ms) RELAY_RETRY_MAX_MS }

def onLinkClosed (s : Relays Origin Key) (m : Moment) (c : Nat) : Relays Origin Key :=
  match s.made[c]? with
  | none => s
  | some r =>
    if r.gone then s else ((s.modify c .leave).settle c r.waiters false).onGone m c

/-- The link ends, by `close` or by itself: `closed`, then its `onClose`. -/
def linkEnd (s : Relays Origin Key) (m : Moment) (c : Nat) : Relays Origin Key :=
  match s.made[c]? with
  | none => s
  | some r =>
    if r.Up then
      (s.modify c fun r => r.mapLink fun l => { l with closed := true }).onLinkClosed m c
    else s

def drop (s : Relays Origin Key) (m : Moment) (c : Nat) : Relays Origin Key :=
  match s.made[c]? with
  | none => s
  | some r =>
    let s := if s.conns.get r.origin = some c then
        { s with conns := s.conns.delete r.origin }
      else s
    (s.linkEnd m c).onLinkClosed m c

/-- A new `RelayConn` in the map, and its `open` up to the answer. -/
def dial (s : Relays Origin Key) (addr : RelayAddr Origin Key) (caller : RelayCaller) :
    Relays Origin Key :=
  { s with
    made := s.made ++ [.new addr caller]
    conns := s.conns.set addr.origin s.made.length }

/-- `conn(addr, home)`, `home` from `dialHome`. -/
def conn (s : Relays Origin Key) (m : Moment) (addr : RelayAddr Origin Key)
    (caller : RelayCaller) : Relays Origin Key :=
  match s.conns.get addr.origin with
  | none => s.dial addr caller
  | some c =>
    if (s.made[c]?.map fun r => r.key) = some addr.key then s.later (.connected (some c) caller)
    else
      match caller with
      | .call => s.later (.connected none .call)
      | .dialHome => (s.drop m c).dial addr .dialHome

def dialHome (s : Relays Origin Key) (m : Moment) : Relays Origin Key :=
  match s.homeAddr with
  | none => s
  | some addr => s.conn m addr .dialHome

/-- Leaving the home relay for `origin`. -/
def leaveHome (s : Relays Origin Key) (m : Moment) (origin : Option Origin) :
    Relays Origin Key :=
  match s.home with
  | none => s
  | some o =>
    if origin = some o then s
    else
      match s.conns.get o with
      | none => s
      | some c => s.drop m c

/-- `join`, none for the URL that leaves. -/
def join (s : Relays Origin Key) (m : Moment) (addr : Option (RelayAddr Origin Key)) :
    Relays Origin Key :=
  let s := { s.leaveHome m (addr.map RelayAddr.origin) with
    home := addr.map RelayAddr.origin
    homeAddr := addr
    retryAt := none
    retryMs := RELAY_RETRY_MS }
  s.dialHome m

def onWake (s : Relays Origin Key) (m : Moment) (t : ℚ) : Relays Origin Key :=
  if s.retryAt.any fun at' => decide (at' ≤ t) then
    { s with retryAt := none }.dialHome m
  else s

def call (s : Relays Origin Key) (m : Moment) (addr : RelayAddr Origin Key) :
    Relays Origin Key :=
  s.conn m addr .call

/-- The rest of `RelayConn.open`, and of the `conn` that awaits it. The answer none is a host
call that throws or rejects, which ends both. -/
def opened (s : Relays Origin Key) (m : Moment) (c : Nat) (answer : Option Nat) :
    Relays Origin Key :=
  match s.made[c]? with
  | none => s
  | some r =>
    let s := s.modify c fun r => { r with dialing := false, answered := answer }
    match answer with
    | none => s
    | some linkId =>
      if linkId = 0 ∨ r.gone then
        let s := if linkId = 0 then s else { s with netLinkClosed := s.netLinkClosed ++ [linkId] }
        (s.onLinkClosed m c).later (.connected (some c) r.caller)
      else
        let link : RelayLink := ⟨linkId, !decide (some r.origin = s.home), false, false⟩
        (s.modify c fun r => { r with link := some link }).later (.connected (some c) r.caller)

/-- `onMessage` of a record that says it is registered. -/
def onRegistered (s : Relays Origin Key) (m : Moment) (c : Nat) : Relays Origin Key :=
  match s.made[c]? with
  | none => s
  | some r =>
    if r.registered then s
    else
      (s.modify c fun r =>
        { r with registered := true, upSince := some m.now, waiters := [] }).settle c r.waiters true

/-- What a task does once its await is over, `ok` when nothing threw. -/
def resume (s : Relays Origin Key) (t : RelayTask) (ok : Bool) : Relays Origin Key :=
  match t with
  | .connected none _ => s
  | .connected (some c) .dialHome => (s.keep c).ready c .dialHome
  | .connected (some c) .call => s.ready c .call
  | .readied _ .dialHome _ | .readied _ .call false => s
  | .readied c .call true => s.later (.ticket c)
  | .ticket c =>
    if ok = true ∧ (s.made[c]?.bind fun r => r.link).any fun l => l.authed then
      s.later (.sending c)
    else s
  | .sending c =>
    if ok = true ∧ (s.made[c]?.bind fun r => r.link).any fun l => !l.closed then
      s.later .splicing
    else s
  | .splicing => s

end Relays

/-- What happens to the relays of a node, one after another. -/
inductive RelayEvent (Origin Key : Type) where
  | join (addr : Option (RelayAddr Origin Key))
  | call (addr : RelayAddr Origin Key)
  | wake (t : ℚ)
  | opened (c : Nat) (answer : Option Nat)
  | authed (c : Nat)
  | registered (c : Nat)
  | linkClosed (c : Nat)
  | resume (i : Nat) (ok : Bool)
  deriving DecidableEq

namespace Relays

variable [DecidableEq Origin] [DecidableEq Key]

/-- A `RelayConn` whose `open` awaits its answer. -/
def Dialing (s : Relays Origin Key) (c : Nat) : Prop :=
  ∃ r, s.made[c]? = some r ∧ r.dialing = true

/-- A `RelayConn` with a link that has not ended. -/
def Linked (s : Relays Origin Key) (c : Nat) : Prop := ∃ r, s.made[c]? = some r ∧ r.Up

instance (s : Relays Origin Key) (c : Nat) : Decidable (s.Dialing c) :=
  match h : s.made[c]? with
  | none => isFalse (by simp [Dialing, h])
  | some r => decidable_of_iff (r.dialing = true) (by simp [Dialing, h])

instance (s : Relays Origin Key) (c : Nat) : Decidable (s.Linked c) :=
  match h : s.made[c]? with
  | none => isFalse (by simp [Linked, h])
  | some r => decidable_of_iff r.Up (by simp [Linked, h])

def step (s : Relays Origin Key) (m : Moment) : RelayEvent Origin Key → Relays Origin Key
  | .join addr => s.join m addr
  | .call addr => s.call m addr
  | .wake t => s.onWake m t
  | .opened c answer => if s.Dialing c then s.opened m c answer else s
  | .authed c =>
    if s.Linked c then s.modify c fun r => r.mapLink fun l => { l with authed := true } else s
  | .registered c =>
    -- The record crosses a link that is up and past its handshake.
    if s.Linked c ∧ (s.made[c]?.bind fun r => r.link).any fun l => l.authed then
      s.onRegistered m c
    else s
  | .linkClosed c => s.linkEnd m c
  | .resume i ok =>
    match s.tasks[i]? with
    | none => s
    | some t => { s with tasks := s.tasks.eraseIdx i }.resume t ok

def run (s : Relays Origin Key) (es : List (Moment × RelayEvent Origin Key)) :
    Relays Origin Key :=
  es.foldl (fun s e => s.step e.1 e.2) s

end Relays

end Model

end SeedTransport
