import SeedTransport.Services.Outbound

set_option autoImplicit false

namespace SeedTransport

/-! The read side of the driver's links (`register` in `services/link.ts`). Its closures call
out to an adapter, which may call back before it returns, so what is left of each is kept on a
stack: the top is a call that has not returned, or the next thing the driver does itself. The
occupant, whose realm starts each invocation on a turn of its own, acts only with nothing on
the stack, and so do a settled read and a microtask. -/

namespace Inbound

open Outbound (maxLinkReadBytes)

def maxInboundHoldBytes : Nat := 8 * maxLinkReadBytes
def maxInboundHoldSlices : Nat := 4096

abbrev Bytes := List UInt8

/-- A read as it was handed over: whether its link was in the table, paused, or had another
read in the realm. -/
structure Handing where
  bytes : Bytes
  live : Bool
  paused : Bool
  alone : Bool
  deriving DecidableEq

/-- The closures' variables for one link. `pausable` is an adapter with a `setReadable`. The
last four are for an observer: what `setReadable` said last, whether a read is in the realm,
and the reads that came from the adapter and that went to the occupant. -/
structure Side where
  pausable : Bool
  activeBytes : Int
  paused : Bool
  held : List Bytes
  told : Option Bool
  inRealm : Bool
  arrived : List Bytes
  handed : List Handing
  deriving DecidableEq

def Side.new (pausable : Bool) : Side := ⟨pausable, -1, false, [], none, false, [], []⟩

/-- What follows once the held reads are dropped. -/
inductive Then where
  | nothing
  | channelClosed
  | dropLink
  deriving DecidableEq

/-- The first six are calls that have not returned: `setReadable(true)`, `setReadable(false)`
of a pause and of a read about to be handed over, the occupant, and the two closes. The others
are the driver's: `idle` and `idleFailed` end a `releaseActive` of so many bytes, and
`dropHeld` has released reads of the widths `freed`. -/
inductive Op where
  | resuming (k : Nat)
  | pausing (k : Nat)
  | halting (k : Nat) (bytes : Bytes)
  | calling (k : Nat) (bytes : Bytes)
  | shutting (k : Nat)
  | closing (k : Nat)
  | drain
  | idle (k : Nat) (length : Nat)
  | idleFailed (k : Nat) (length : Nat)
  | dropHeld (k : Nat) (freed : List Nat) (after : Then)
  | dropLink (k : Nat)
  deriving DecidableEq

def Op.own : Op → Bool
  | .drain | .idle _ _ | .idleFailed _ _ | .dropHeld _ _ _ | .dropLink _ => true
  | _ => false

/-- `ending` is the end of a `reset` in progress, and whether a new occupant is bound after
it; `later` the links whose `link/close` has queued its event. -/
structure TransportHost where
  maxRawLinks : Nat
  side : Nat → Side
  links : List Nat
  nextLinkId : Nat
  bound : Bool
  closed : Bool
  inboundReadSlices : Int
  inboundReadBytes : Int
  starved : List Nat
  stack : List Op
  ending : Option Bool
  later : List Nat

namespace TransportHost

def new (maxRawLinks : Nat) : TransportHost where
  maxRawLinks := maxRawLinks
  side := fun _ => .new false
  links := []
  nextLinkId := 1
  bound := false
  closed := false
  inboundReadSlices := 0
  inboundReadBytes := 0
  starved := []
  stack := []
  ending := none
  later := []

def setSide (h : TransportHost) (k : Nat) (s : Side) : TransportHost :=
  { h with side := Function.update h.side k s }

def push (h : TransportHost) (ops : List Op) : TransportHost := { h with stack := ops ++ h.stack }

/-- Charge one read to the inbound budget; past it, only a `forced` one is charged. -/
def reserveInboundRead (h : TransportHost) (length : Nat) (forced : Bool) : Option TransportHost :=
  if forced = false ∧ ((maxInboundHoldSlices : Int) ≤ h.inboundReadSlices ∨
      (maxInboundHoldBytes : Int) - h.inboundReadBytes < length) then none
  else
    some { h with
      inboundReadSlices := h.inboundReadSlices + 1
      inboundReadBytes := h.inboundReadBytes + length }

def inboundSpent (h : TransportHost) : Bool :=
  decide ((maxInboundHoldSlices : Int) ≤ h.inboundReadSlices) ||
    decide ((maxInboundHoldBytes : Int) ≤ h.inboundReadBytes)

/-- `releaseInboundRead`, then `after`. -/
def releaseInboundRead (h : TransportHost) (length : Nat) (after : Op) : TransportHost :=
  { h with
    inboundReadSlices := h.inboundReadSlices - 1
    inboundReadBytes := h.inboundReadBytes - length
    stack := .drain :: after :: h.stack }

def failReadSide (h : TransportHost) (k : Nat) : TransportHost := h.push [.dropHeld k [] .dropLink]

/-- `channelClosed`, as far as it concerns reads: the link leaves the table. -/
def channelClosed (h : TransportHost) (k : Nat) : TransportHost :=
  { h with links := h.links.erase k }

def resume (h : TransportHost) (k : Nat) : TransportHost :=
  if (h.side k).paused ∨ k ∉ h.links ∨ (h.side k).pausable = false then h
  else (h.setSide k { h.side k with told := some true }).push [.resuming k]

/-- `releaseActive` of a read that finished, and the rest of `releaseRead`. -/
def finished (h : TransportHost) (k : Nat) : TransportHost :=
  h.releaseInboundRead (h.side k).activeBytes.toNat (.idle k (h.side k).activeBytes.toNat)

/-- `toTransport` of one read; with no occupant to call it is finished. -/
def handOver (h : TransportHost) (k : Nat) (bytes : Bytes) : TransportHost :=
  if h.closed ∨ h.bound = false then h.finished k
  else
    (h.setSide k { h.side k with
      handed := (h.side k).handed ++
        [⟨bytes, decide (k ∈ h.links), (h.side k).paused, !(h.side k).inRealm⟩] }).push
      [.calling k bytes]

def dispatchRead (h : TransportHost) (k : Nat) (bytes : Bytes) : TransportHost :=
  let s := { h.side k with activeBytes := bytes.length }
  if s.pausable then (h.setSide k { s with told := some false }).push [.halting k bytes]
  else (h.setSide k s).handOver k bytes

/-- The loop of `releaseRead`, with no read in flight. -/
def readNext (h : TransportHost) (k : Nat) : TransportHost :=
  if k ∉ h.links then h.push [.dropHeld k [] .nothing]
  else if (h.side k).paused then h
  else
    match (h.side k).held with
    | bytes :: rest => (h.setSide k { h.side k with held := rest }).dispatchRead k bytes
    | [] =>
      if (h.side k).pausable && h.inboundSpent then { h with starved := h.starved ++ [k] }
      else h.resume k

def releaseRead (h : TransportHost) (k : Nat) : TransportHost :=
  if 0 ≤ (h.side k).activeBytes then h.finished k else h.readNext k

/-- The driver's next move: with the stack empty, the end of a `reset`. -/
def go (h : TransportHost) : TransportHost :=
  match h.stack with
  | [] =>
    match h.ending with
    | none => h
    | some bind => { h with starved := [], ending := none, bound := bind || h.bound }
  | .drain :: rest =>
    match h.starved with
    | [] => { h with stack := rest }
    | k :: starved =>
      if h.inboundSpent then { h with stack := rest } else { h with starved }.resume k
  | .idle k _ :: rest =>
    ({ h with stack := rest }.setSide k { h.side k with activeBytes := -1 }).readNext k
  | .idleFailed k _ :: rest =>
    ({ h with stack := rest }.setSide k { h.side k with activeBytes := -1 }).failReadSide k
  | .dropHeld k freed after :: rest =>
    match (h.side k).held[freed.length]? with
    | some bytes =>
      { h with stack := rest }.releaseInboundRead bytes.length
        (.dropHeld k (freed ++ [bytes.length]) after)
    | none =>
      let h := { h with stack := rest }.setSide k { h.side k with held := [] }
      match after with
      | .nothing => h
      | .channelClosed => h.channelClosed k
      | .dropLink => h.push [.shutting k]
  | .dropLink k :: rest => { h with stack := .shutting k :: rest }
  | _ => h

/-- How the call on top comes back; `absent` is `null` for a promise. -/
inductive Answer where
  | returned
  | threw
  | absent
  deriving DecidableEq

/-- The call on top comes back. -/
def back (h : TransportHost) (a : Answer) : TransportHost :=
  match h.stack with
  | .resuming k :: rest | .pausing k :: rest =>
    if a = .threw then { h with stack := rest }.failReadSide k else { h with stack := rest }
  | .halting k bytes :: rest =>
    let h := { h with stack := rest }
    if a = .threw then
      h.releaseInboundRead (h.side k).activeBytes.toNat
        (.idleFailed k (h.side k).activeBytes.toNat)
    else h.handOver k bytes
  | .calling k _ :: rest =>
    let h := { h with stack := rest }
    if a = .returned then h.setSide k { h.side k with inRealm := true } else h.finished k
  | .shutting k :: rest => { h with stack := rest }.channelClosed k
  | .closing k :: rest => { h with stack := rest, later := h.later ++ [k] }
  | _ => h

/-- The adapter's read callback. -/
def onData (h : TransportHost) (k : Nat) (bytes : Bytes) : TransportHost :=
  if k ∉ h.links then h
  else
    let h := h.setSide k { h.side k with arrived := (h.side k).arrived ++ [bytes] }
    if maxLinkReadBytes < bytes.length then h.failReadSide k
    else
      match h.reserveInboundRead bytes.length (h.side k).pausable with
      | none => h.failReadSide k
      | some h =>
        if (h.side k).activeBytes < 0 ∧ (h.side k).paused = false then h.dispatchRead k bytes
        else h.setSide k { h.side k with held := (h.side k).held ++ [bytes] }

/-- The adapter's close callback. -/
def onClose (h : TransportHost) (k : Nat) : TransportHost :=
  if k < h.nextLinkId then h.push [.dropHeld k [] .channelClosed] else h

/-- `link/pause`. -/
def pause (h : TransportHost) (k : Nat) (on : Bool) : TransportHost :=
  if k ∉ h.links then h
  else
    let h := h.setSide k { h.side k with paused := on }
    if on then
      if (h.side k).pausable then
        (h.setSide k { h.side k with told := some false }).push [.pausing k]
      else h
    else if (h.side k).activeBytes < 0 then h.releaseRead k
    else h

def register (h : TransportHost) (pausable : Bool) : TransportHost :=
  if h.maxRawLinks ≤ h.links.length then h
  else
    { h with
      nextLinkId := h.nextLinkId + 1
      side := Function.update h.side h.nextLinkId (.new pausable)
      links := h.links ++ [h.nextLinkId] }

/-- `reset` up to its first close, over a copy of the table. -/
def reset (h : TransportHost) (bind : Bool) : TransportHost :=
  { h with stack := h.links.map .dropLink, ending := some bind }

def activate (h : TransportHost) : TransportHost :=
  if h.bound then { h with bound := false }.reset true else { h with bound := true }

def release (h : TransportHost) : TransportHost :=
  if h.bound then { h with bound := false }.reset false else h

def close (h : TransportHost) : TransportHost :=
  if h.closed then h else { h with closed := true, bound := false }.reset false

/-- Nothing of the driver's is running. -/
def Rest (h : TransportHost) : Prop := h.stack = [] ∧ h.ending = none

instance (h : TransportHost) : Decidable h.Rest := inferInstanceAs (Decidable (_ ∧ _))

/-- An adapter may call: nothing runs, or a call out has not returned. -/
def Outside (h : TransportHost) : Prop :=
  match h.stack with
  | [] => h.ending = none
  | op :: _ => op.own = false

instance (h : TransportHost) : Decidable h.Outside := by
  unfold Outside
  split <;> infer_instance

/-- What happens to a driver. `settle` is a read's promise, kept or not; `microtask` the event
that a `link/close` raises on a later turn; `sendThrew` an adapter's throwing `send`. -/
inductive Label where
  | go
  | back (a : Answer)
  | onData (k : Nat) (bytes : Bytes)
  | onClose (k : Nat)
  | register (pausable : Bool)
  | pause (k : Nat) (on : Bool)
  | close (k : Nat)
  | sendThrew (k : Nat)
  | settle (k : Nat)
  | microtask
  | activate
  | release
  | reset
  | shut
  deriving DecidableEq

def step (h : TransportHost) : Label → TransportHost
  | .go => h.go
  | .back a => h.back a
  | .onData k bytes => if h.Outside then h.onData k bytes else h
  | .onClose k => if h.Outside then h.onClose k else h
  | .register pausable => if h.Rest ∧ h.bound then h.register pausable else h
  | .pause k on => if h.Rest ∧ h.bound then h.pause k on else h
  | .close k => if h.Rest ∧ h.bound ∧ k ∈ h.links then h.push [.closing k] else h
  | .sendThrew k => if h.Rest ∧ h.bound ∧ k ∈ h.links then h.push [.dropLink k] else h
  | .settle k =>
    if h.Rest ∧ (h.side k).inRealm then
      (h.setSide k { h.side k with inRealm := false }).releaseRead k
    else h
  | .microtask =>
    match h.later with
    | [] => h
    | k :: rest => if h.Rest then { h with later := rest }.channelClosed k else h
  -- the shell installs nothing once it has closed the driver
  | .activate => if h.Rest ∧ h.closed = false then h.activate else h
  | .release => if h.Rest then h.release else h
  | .reset => if h.Rest then h.reset false else h
  | .shut => if h.Rest then h.close else h

def run (h : TransportHost) (labels : List Label) : TransportHost := labels.foldl step h

end TransportHost

end Inbound

end SeedTransport
