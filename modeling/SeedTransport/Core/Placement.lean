import SeedTransport.Core.Router
import SeedTransport.Core.ReqRes
import SeedTransport.Link.State

set_option autoImplicit false

namespace SeedTransport

/-! How a frame comes to be on a link, or does not: `Router.send`, `sendOn`, `Core.place` and
`sendFrame` over the links as they are, and `ReqRes.put`, which fails a request no link
took. -/

/-- A request not yet put on a link, one whose dial is under way, or one a link was given. -/
inductive AskState where
  | held
  | dialing
  | put
  deriving DecidableEq

/-- An outstanding request, with the frame it was built as. -/
structure Ask where
  peer : Bytes
  d : Nat
  frame : Bytes
  state : AskState
  deriving DecidableEq

/-- A node's links and its routing, with the requests that wait on them. Links are named by
their place in `links`. -/
structure Exchange where
  own : Bytes
  links : List Link
  relayed : Nat → Bool
  pools : OrdMap Bytes Pool
  connecting : OrdMap Bytes (List Nat)
  addrs : List Bytes
  pending : OrdMap Nat Ask
  resolved : List (Nat × Bytes)

/-- `link.peerId || link.dialedPeerId` -/
def Link.peerOf (l : Link) : Bytes := if l.peerId ≠ [] then l.peerId else l.spec.dialedPeerId

namespace Exchange

def create (own : Bytes) (addrs : List Bytes) : Exchange :=
  { own, links := [], relayed := fun _ => false, pools := .empty, connecting := .empty, addrs,
    pending := .empty, resolved := [] }

def setLink (i : Nat) (l : Link) (x : Exchange) : Exchange := { x with links := x.links.set i l }

def setPool (peer : Bytes) (p : Pool) (x : Exchange) : Exchange :=
  { x with pools := x.pools.set peer p }

/-! ### Requests -/

def finish (corr : Nat) (payload : Option Bytes) (x : Exchange) : Exchange :=
  match x.pending.get corr with
  | none => x
  | some a =>
    { x with
      pending := x.pending.delete corr
      resolved := x.resolved ++ [(a.d, ReqRes.answer payload)] }

def dropFor (peer : Bytes) (x : Exchange) (corr : Nat) : Exchange :=
  match x.pending.get corr with
  | none => x
  | some a => if a.peer = peer then x.finish corr none else x

def peerDown (peer : Bytes) (x : Exchange) : Exchange :=
  x.pending.keys.foldl (dropFor peer) x

/-- Note how far a request got, unless it was settled meanwhile. -/
def note (corr : Nat) (state : AskState) (x : Exchange) : Exchange :=
  match x.pending.get corr with
  | none => x
  | some a => { x with pending := x.pending.set corr { a with state := state } }

/-! ### Routing -/

def linkCount (peer : Bytes) (x : Exchange) : Nat :=
  match x.pools.get peer with
  | none => 0
  | some p => p.links.length

/-- `Core.drop(this.connecting, link.dialedPeerId, link)` -/
def dropConnecting (i : Nat) (l : Link) (x : Exchange) : Exchange :=
  match x.connecting.get l.spec.dialedPeerId with
  | none => x
  | some a =>
    if i ∈ a then
      if a.erase i = [] then { x with connecting := x.connecting.delete l.spec.dialedPeerId }
      else { x with connecting := x.connecting.set l.spec.dialedPeerId (a.erase i) }
    else x

/-- `Router.remove` -/
def remove (i : Nat) (l : Link) (x : Exchange) : Exchange :=
  match x.pools.get l.peerId with
  | none => x
  | some p =>
    if i ∈ p.held then x.setPool l.peerId { p with held := p.held.erase i }
    else if i ∉ p.links then x
    else
      let p := p.unlist (x.relayed i) i
      if p.links ≠ [] then x.setPool l.peerId p
      else if p.held ≠ [] then
        x.setPool l.peerId (p.held.foldl (fun p j => p.list (x.relayed j) j) { p with held := [] })
      else { x with pools := x.pools.delete l.peerId }.peerDown l.peerId

/-- `link.send(frame)`; a link that ends itself on it leaves routing before `send` returns. -/
def sendLink (forget : Nat → Exchange → Exchange) (i : Nat) (frame : Bytes) (x : Exchange) :
    Exchange :=
  match x.links[i]? with
  | none => x
  | some l =>
    let x := x.setLink i (l.send frame)
    if (l.send frame).closed = l.closed then x else forget i x

/-- `Router.send` -/
def send (forget : Nat → Exchange → Exchange) (peer frame : Bytes) (x : Exchange) :
    Bool × Exchange :=
  match x.pools.get peer with
  | none => (false, x)
  | some p =>
    if p.links = [] then (false, x)
    else
      let i := p.next % p.width
      match p.links[i]? with
      | none => (false, x)
      | some l => (true, (x.setPool peer { p with next := i + 1 }).sendLink forget l frame)

/-- `Router.sendOn` -/
def sendOn (forget : Nat → Exchange → Exchange) (peer : Bytes) (link : Nat) (frame : Bytes)
    (x : Exchange) : Bool × Exchange :=
  match x.pools.get peer with
  | none => x.send forget peer frame
  | some p =>
    if link ∈ p.links.take p.width then (true, x.sendLink forget link frame)
    else x.send forget peer frame

/-- `Core.place` -/
def place (forget : Nat → Exchange → Exchange) (peer frame : Bytes) (x : Exchange) :
    Bool × Exchange :=
  match x.send forget peer frame with
  | (true, x) => (true, x)
  | (false, x) =>
    match x.connecting.get peer with
    | some (l :: _) => (true, x.sendLink forget l frame)
    | _ => (false, x)

/-- The frames a dying link hands on, placed one after another. -/
def placeAll (forget : Nat → Exchange → Exchange) (peer : Bytes) (frames : List Bytes)
    (x : Exchange) : Exchange :=
  frames.foldl (fun x frame => (x.place forget peer frame).2) x

/-- `Core.forget`, over the level below it. -/
def forgetWith (forget : Nat → Exchange → Exchange) (i : Nat) (l : Link) (x : Exchange) : Exchange :=
  let x := (x.dropConnecting i l).remove i l
  if l.peerOf = [] then x
  else
    let x := (x.setLink i l.handOn).placeAll forget l.peerOf l.queue
    if !l.authed && x.linkCount l.peerOf = 0 && !x.connecting.has l.peerOf then x.peerDown l.peerOf
    else x

/-- The links that end inside it end one level below. -/
def forget : Nat → Nat → Exchange → Exchange
  | 0, _, x => x
  | n + 1, i, x =>
    match x.links[i]? with
    | none => x
    | some l => forgetWith (forget n) i l x

/-- Each level ends one more link, so as many levels as there are links do. -/
def leave (x : Exchange) : Nat → Exchange → Exchange := forget (x.links.length + 1)

/-- `Core.sendFrame` up to its dial: `none` waits for one. -/
def sendFrame (peer frame : Bytes) (x : Exchange) : Option Bool × Exchange :=
  if peer = x.own then (some false, x)
  else
    match x.place x.leave peer frame with
    | (true, x) => (some true, x)
    | (false, x) => if peer ∈ x.addrs then (none, x) else (some false, x)

/-- `ReqRes.put` -/
def put (corr : Nat) (a : Ask) (x : Exchange) : Exchange :=
  match x.sendFrame a.peer a.frame with
  | (some true, x) => x.note corr .put
  | (some false, x) => x.finish corr none
  | (none, x) => x.note corr .dialing

/-- The rest of `sendFrame` behind its dial, and of the `put` that called it. -/
def dialed (corr : Nat) (a : Ask) (x : Exchange) : Exchange :=
  match x.place x.leave a.peer a.frame with
  | (true, x) => x.note corr .put
  | (false, x) => x.finish corr none

/-- A link ends: closed, aborted, or its socket gone. -/
def ended (how : How) (l : Link) : Link :=
  match how with
  | .close => l.close
  | .abort => l.abort false
  | .lost => l.onChannelClosed

def endLink (i : Nat) (how : How) (x : Exchange) : Exchange :=
  match x.links[i]? with
  | none => x
  | some l =>
    let x := x.setLink i (ended how l)
    if l.closed then x else x.leave i x

/-- What happens: requests, sends, ends of links. When a request is put is the relay window's
to say; `other` is all that goes on besides: links that come up, and what they seal. -/
inductive Event where
  | ask (corr : Nat) (peer : Bytes) (d : Nat) (frame : Bytes)
  | put (corr : Nat)
  | dialed (corr : Nat)
  | send (peer frame : Bytes)
  | sendOn (peer : Bytes) (link : Nat) (frame : Bytes)
  | place (peer frame : Bytes)
  | sendFrame (peer frame : Bytes)
  | endLink (i : Nat) (how : How)
  | finish (corr : Nat) (payload : Option Bytes)
  | other (x : Exchange)

def step (x : Exchange) : Event → Exchange
  | .ask corr peer d frame => { x with pending := x.pending.set corr ⟨peer, d, frame, .held⟩ }
  | .put corr =>
    match x.pending.get corr with
    | none => x
    | some a => if a.state = .held then x.put corr a else x
  | .dialed corr =>
    match x.pending.get corr with
    | none => x
    | some a => if a.state = .dialing then x.dialed corr a else x
  | .send peer frame => (x.send x.leave peer frame).2
  | .sendOn peer link frame => (x.sendOn x.leave peer link frame).2
  | .place peer frame => (x.place x.leave peer frame).2
  | .sendFrame peer frame => (x.sendFrame peer frame).2
  | .endLink i how => x.endLink i how
  | .finish corr payload => x.finish corr payload
  | .other x' => x'

def run (x : Exchange) (es : List Event) : Exchange := es.foldl step x

end Exchange

end SeedTransport
