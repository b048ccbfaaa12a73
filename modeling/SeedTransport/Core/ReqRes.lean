import SeedTransport.Lib.OrdMap
import SeedTransport.Util

set_option autoImplicit false

namespace SeedTransport

/-! The request half of the request/response layer (`router.js`, class `ReqRes`): requests
made for apps, their correlation ids, their answers and the window of a relayed peer. The
router is outside: how a peer is reached, and what becomes of links while a frame is put on
one, come in from there. -/

/-- How the router reaches a peer. -/
inductive Route where
  | unreached
  | relayed
  | direct
  deriving DecidableEq

/-- What a link that dies under a frame does on its way out, inside the call that sent it. -/
inductive Upset where
  | route (peer : Bytes) (r : Route)
  | down (peer : Bytes)
  deriving DecidableEq

/-- An outstanding request. `d` names its deferred, `due` is `none` for no deadline. -/
structure Pending where
  peer : Bytes
  d : Nat
  due : Option Nat
  relayedBytes : Nat
  held : Option Bytes
  deriving DecidableEq

/-- What a relayed peer has unanswered, and the requests held back, oldest first. -/
structure Window where
  bytes : Int
  waiting : List Nat
  deriving DecidableEq

/-- The last four are for an observer: the id and the peer of each request by its deferred,
the deferreds resolved with their answers, the frames that came in, and the held requests in
the order they were put on links. -/
structure ReqRes where
  maxFrameBytes : Nat
  requestTimeoutMs : Nat
  now : Nat
  route : Bytes → Route
  pending : OrdMap Nat Pending
  nextCorr : Nat
  relayed : OrdMap Bytes Window
  requests : List (Nat × Bytes)
  resolved : List (Nat × Bytes)
  got : List (Bytes × Bytes)
  puts : List Nat

namespace ReqRes

def KIND_REQ : UInt8 := 0x00
def KIND_RES : UInt8 := 0x01
def FLAG_NO_REPLY : UInt8 := 0x80
def RES_HEAD_LEN : Nat := 1 + 4

def create (maxFrameBytes requestTimeoutMs : Nat) : ReqRes :=
  { maxFrameBytes, requestTimeoutMs, now := 0, route := fun _ => .unreached, pending := .empty,
    nextCorr := 1, relayed := .empty, requests := [], resolved := [], got := [], puts := [] }

def buildReq (corr : Nat) (noReply : Bool) (proto payload : Bytes) : Bytes :=
  [if noReply then KIND_REQ ||| FLAG_NO_REPLY else KIND_REQ] ++ writeU32BE corr ++
    [UInt8.ofNat proto.length] ++ proto ++ payload

/-- `[1][payload]`, or `[0]` for none. -/
def answer : Option Bytes → Bytes
  | none => [0]
  | some payload => 1 :: payload

/-- A request leaves the map and its deferred is resolved. -/
def settle (corr : Nat) (p : Pending) (payload : Option Bytes) (r : ReqRes) : ReqRes :=
  { r with pending := r.pending.delete corr, resolved := r.resolved ++ [(p.d, answer payload)] }

/-- One turn of the loop of `peerDown`: with no window left there is nothing to pump. -/
def dropFor (peer : Bytes) (r : ReqRes) (corr : Nat) : ReqRes :=
  match r.pending.get corr with
  | none => r
  | some p => if p.peer = peer then r.settle corr p none else r

def peerDown (peer : Bytes) (r : ReqRes) : ReqRes :=
  let r := { r with relayed := r.relayed.delete peer }
  r.pending.keys.foldl (dropFor peer) r

def upset (r : ReqRes) : Upset → ReqRes
  | .route peer route => { r with route := Function.update r.route peer route }
  | .down peer => r.peerDown peer

/-- `put`: the frame goes to a link, whose fate is `fate`. A frame no link takes fails its
request in a later turn. -/
def put (fate : List Upset) (r : ReqRes) : ReqRes := fate.foldl upset r

/-- Write a window back, unless its peer went down meanwhile. -/
def setWindow (peer : Bytes) (q : Window) (r : ReqRes) : ReqRes :=
  match r.relayed.get peer with
  | none => r
  | some _ => { r with relayed := r.relayed.set peer q }

/-- A held request is put on a link, over the relay unless `direct`. -/
def unhold (corr : Nat) (p : Pending) (direct : Bool) (frame : Bytes) (r : ReqRes) : ReqRes :=
  { r with
    pending := r.pending.set corr
      { p with held := none, relayedBytes := if direct then p.relayedBytes else frame.length }
    puts := r.puts ++ [p.d] }

/-- The end of `pumpRelayed`. -/
def closeWindow (peer : Bytes) (direct : Bool) (q : Window) (r : ReqRes) : ReqRes :=
  if q.waiting = [] ∧ (direct = true ∨ q.bytes = 0) then
    { r with relayed := r.relayed.delete peer }
  else r

/-- The loop of `pumpRelayed` over `waiting`; each put has its own fate. It throws when it
meets a request that holds no frame. -/
def pumpLoop (peer : Bytes) (direct : Bool) :
    List Nat → Int → List (List Upset) → ReqRes → Bool × ReqRes
  | [], bytes, _, r => (true, r.closeWindow peer direct ⟨bytes, []⟩)
  | corr :: waiting, bytes, fates, r =>
    match r.pending.get corr with
    | none => pumpLoop peer direct waiting bytes fates (r.setWindow peer ⟨bytes, waiting⟩)
    | some p =>
      match p.held with
      | none =>
        if direct then
          pumpLoop peer direct waiting bytes fates.tail
            ((r.setWindow peer ⟨bytes, waiting⟩).put (fates.headD []))
        else if 0 < bytes then (false, r)
        else (false, r.setWindow peer ⟨bytes, waiting⟩)
      | some frame =>
        if !direct && decide (0 < bytes) &&
            decide ((r.maxFrameBytes : Int) < bytes + frame.length) then (true, r)
        else
          let bytes := if direct then bytes else bytes + frame.length
          pumpLoop peer direct waiting bytes fates.tail
            ((unhold corr p direct frame (r.setWindow peer ⟨bytes, waiting⟩)).put (fates.headD []))

/-- `pumpRelayed`; false when it throws. -/
def pumpRelayed (peer : Bytes) (fates : List (List Upset)) (r : ReqRes) : Bool × ReqRes :=
  match r.relayed.get peer with
  | none => (true, r)
  | some q => pumpLoop peer (decide (r.route peer ≠ .relayed)) q.waiting q.bytes fates r

/-- `finish`: the pump runs before the deferred is resolved, which a throw in it skips. -/
def finish (corr : Nat) (payload : Option Bytes) (fates : List (List Upset)) (r : ReqRes) :
    Bool × ReqRes :=
  match r.pending.get corr with
  | none => (true, r)
  | some p =>
    let resolve (r : ReqRes) : ReqRes :=
      { r with resolved := r.resolved ++ [(p.d, answer payload)] }
    let r := { r with pending := r.pending.delete corr }
    if p.relayedBytes = 0 then (true, resolve r)
    else
      match r.relayed.get p.peer with
      | none => (true, resolve r)
      | some q =>
        match pumpRelayed p.peer fates
            (r.setWindow p.peer ⟨q.bytes - p.relayedBytes, q.waiting⟩) with
        | (true, r) => (true, resolve r)
        | (false, r) => (false, r)

/-- The id after `corr`: it is a u32 on the wire, and 0 is taken. -/
def nextId (corr : Nat) : Nat := if 0xffffffff < corr + 1 then 1 else corr + 1

/-- A request enters the map. -/
def enter (peer : Bytes) (held : Option Bytes) (r : ReqRes) : ReqRes :=
  let p : Pending :=
    { peer, d := r.requests.length,
      due := if 0 < r.requestTimeoutMs then some (r.now + r.requestTimeoutMs) else none,
      relayedBytes := 0, held }
  { r with
    nextCorr := nextId r.nextCorr
    pending := r.pending.set r.nextCorr p
    requests := r.requests ++ [(r.nextCorr, peer)] }

def request (peer proto payload : Bytes) (noReply : Bool) (fates : List (List Upset))
    (r : ReqRes) : ReqRes :=
  if noReply then r.put (fates.headD [])
  else
    let corr := r.nextCorr
    let frame := buildReq corr false proto payload
    if r.route peer ≠ .relayed then (r.enter peer none).put (fates.headD [])
    else
      let q := (r.relayed.get peer).getD ⟨0, []⟩
      let r := r.enter peer (some frame)
      let r := { r with relayed := r.relayed.set peer ⟨q.bytes, q.waiting ++ [corr]⟩ }
      (r.pumpRelayed peer fates).2

/-- `onFrame`: a response settles the request it names, if it was for the sender. A request
in it goes to the delivery window and touches nothing here. -/
def onFrame (peer frame : Bytes) (fates : List (List Upset)) (r : ReqRes) : ReqRes :=
  let r := { r with got := r.got ++ [(peer, frame)] }
  if frame.length < RES_HEAD_LEN then r
  else if frame.headD 0 &&& KIND_RES = 0 then r
  else
    match r.pending.get (readU32BE frame 1) with
    | none => r
    | some p =>
      if p.peer ≠ peer then r
      else (r.finish (readU32BE frame 1) (some (frame.drop RES_HEAD_LEN)) fates).2

/-- The loop of `onWake`, over the ids in the map when it began. -/
def wakeLoop (t : Nat) : List Nat → List (List (List Upset)) → ReqRes → ReqRes
  | [], _, r => r
  | corr :: corrs, fates, r =>
    match r.pending.get corr with
    | none => wakeLoop t corrs fates r
    | some p =>
      if (match p.due with | none => true | some due => decide (t < due)) then r
      else
        match r.finish corr none (fates.headD []) with
        | (true, r) => wakeLoop t corrs fates.tail r
        | (false, r) => r

def onWake (fates : List (List (List Upset))) (r : ReqRes) : ReqRes :=
  if r.requestTimeoutMs = 0 then r else wakeLoop r.now r.pending.keys fates r

/-- What happens to the layer. -/
inductive Event where
  | request (peer proto payload : Bytes) (noReply : Bool) (fates : List (List Upset))
  | frame (peer frame : Bytes) (fates : List (List Upset))
  /-- No link took the frame of request `corr`. -/
  | unanswerable (corr : Nat) (fates : List (List Upset))
  | wake (fates : List (List (List Upset)))
  | elapse (ms : Nat)
  /-- A direct link authenticated: what the relay held back goes out on it. -/
  | direct (peer : Bytes) (fates : List (List Upset))
  /-- Links came or went. -/
  | route (peer : Bytes) (r : Route)
  | down (peer : Bytes)

def step (r : ReqRes) : Event → ReqRes
  | .request peer proto payload noReply fates => r.request peer proto payload noReply fates
  | .frame peer frame fates => r.onFrame peer frame fates
  | .unanswerable corr fates => (r.finish corr none fates).2
  | .wake fates => r.onWake fates
  | .elapse ms => { r with now := r.now + ms }
  | .direct peer fates =>
    ({ r with route := Function.update r.route peer .direct }.pumpRelayed peer fates).2
  | .route peer route => { r with route := Function.update r.route peer route }
  | .down peer => r.peerDown peer

def run (r : ReqRes) (evs : List Event) : ReqRes := evs.foldl step r

end ReqRes

end SeedTransport
