import SeedTransport.Lib.OrdMap
import SeedTransport.Util

set_option autoImplicit false

namespace SeedTransport

/-! The router (`router.js`, class `Router`) and the part of `core.js` that opens, places and
forgets links. A link is seen from outside here: what it was opened as, whether it is
authenticated or closed, what it puts on its wire. Links are named by their place in
`conns`. -/

/-- What a link puts on its wire once it is authenticated. -/
inductive Item where
  | frame (f : Bytes)
  | goodbye
  deriving DecidableEq

structure Conn where
  dialedPeerId : Option Bytes
  peerId : Option Bytes
  relayed : Bool
  authed : Bool
  closed : Bool
  peerSaidGoodbye : Bool
  queue : List Bytes
  /-- How many more records the link takes before it ends itself, its epochs or its outbound
  queue used up. -/
  room : Nat
  wire : List Item
  deriving DecidableEq

def Conn.weDialed (k : Conn) : Bool := k.dialedPeerId.isSome

/-- Only a deliberate end says goodbye, and not to a peer that has. -/
def Conn.shut (farewell : Bool) (k : Conn) : Conn :=
  { k with
    closed := true
    wire := if farewell && k.authed && !k.peerSaidGoodbye then k.wire ++ [.goodbye] else k.wire }

/-- A peer's links: the routable ones, how many direct ones lead them, those read but no
longer written, and the round-robin cursor. -/
structure Pool where
  links : List Nat
  direct : Nat
  held : List Nat
  next : Nat
  deriving DecidableEq

def Pool.empty : Pool := ⟨[], 0, [], 0⟩

/-- Put a link with its kind: direct ones come before relayed ones. -/
def Pool.list (relayed : Bool) (i : Nat) (p : Pool) : Pool :=
  if relayed then { p with links := p.links ++ [i] }
  else { p with links := p.links.insertIdx p.direct i, direct := p.direct + 1 }

def Pool.unlist (relayed : Bool) (i : Nat) (p : Pool) : Pool :=
  if i ∈ p.links then
    { p with links := p.links.erase i, direct := if relayed then p.direct else p.direct - 1 }
  else p

/-- Keep a link for reading only. -/
def Pool.hold (i : Nat) (p : Pool) : Pool := { p with held := p.held ++ [i] }

/-- How many links `send` chooses among. -/
def Pool.width (p : Pool) : Nat := if p.direct = 0 then p.links.length else p.direct

/-- `downs` are the peers reported down, in order. -/
structure Core where
  own : Bytes
  conns : List Conn
  pools : OrdMap Bytes Pool
  connecting : OrdMap Bytes (List Nat)
  downs : List Bytes

namespace Core

def create (own : Bytes) : Core := ⟨own, [], .empty, .empty, []⟩

def setConn (i : Nat) (f : Conn → Conn) (c : Core) : Core := { c with conns := c.conns.modify i f }

def setPool (peer : Bytes) (p : Pool) (c : Core) : Core := { c with pools := c.pools.set peer p }

def modifyPool (peer : Bytes) (f : Pool → Pool) (c : Core) : Core :=
  match c.pools.get peer with
  | none => c
  | some p => c.setPool peer (f p)

def relayed (i : Nat) (c : Core) : Bool := (c.conns[i]?.map Conn.relayed).getD false

def weDialed (i : Nat) (c : Core) : Bool := (c.conns[i]?.map Conn.weDialed).getD false

def linkCount (peer : Bytes) (c : Core) : Nat :=
  match c.pools.get peer with
  | none => 0
  | some p => p.links.length

def hasDirect (peer : Bytes) (c : Core) : Bool :=
  match c.pools.get peer with
  | none => false
  | some p => decide (0 < p.direct)

/-- `Core.push(this.connecting, ...)` -/
def pushConnecting (peer : Bytes) (i : Nat) (c : Core) : Core :=
  { c with connecting := c.connecting.set peer ((c.connecting.get peer).getD [] ++ [i]) }

/-- `Core.drop(this.connecting, link.dialedPeerId, link)` -/
def dropConnecting (i : Nat) (c : Core) : Core :=
  match c.conns[i]?.bind Conn.dialedPeerId with
  | none => c
  | some peer =>
    match c.connecting.get peer with
    | none => c
    | some a =>
      if i ∈ a then
        if a.erase i = [] then { c with connecting := c.connecting.delete peer }
        else { c with connecting := c.connecting.set peer (a.erase i) }
      else c

/-- `reqres.peerDown(peer)` -/
def peerDown (peer : Bytes) (c : Core) : Core := { c with downs := c.downs ++ [peer] }

/-! ### Sending

A link that ends itself on a send leaves routing inside that send, so each function that may
reach one takes how a link ends, `close`. Frames are within the cap and not empty. -/

/-- `link.send(frame)` -/
def sendLink (close : Nat → Core → Core) (i : Nat) (frame : Bytes) (c : Core) : Core :=
  match c.conns[i]? with
  | none => c
  | some k =>
    if k.closed then c
    else if k.authed then
      if k.room = 0 then close i c
      else c.setConn i fun k => { k with room := k.room - 1, wire := k.wire ++ [.frame frame] }
    else c.setConn i fun k => { k with queue := k.queue ++ [frame] }

/-- `Router.send` -/
def send (close : Nat → Core → Core) (peer frame : Bytes) (c : Core) : Bool × Core :=
  match c.pools.get peer with
  | none => (false, c)
  | some p =>
    if p.links = [] then (false, c)
    else
      let i := p.next % p.width
      match p.links[i]? with
      | none => (false, c)
      | some l => (true, sendLink close l frame (c.setPool peer { p with next := i + 1 }))

/-- `Router.sendOn` -/
def sendOn (close : Nat → Core → Core) (peer : Bytes) (link : Nat) (frame : Bytes) (c : Core) :
    Bool × Core :=
  match c.pools.get peer with
  | none => c.send close peer frame
  | some p =>
    if link ∈ p.links.take p.width then (true, sendLink close link frame c)
    else c.send close peer frame

/-- `Router.sendInOrder` -/
def sendInOrder (close : Nat → Core → Core) (peer frame : Bytes) (c : Core) :
    Bool × Core :=
  match c.pools.get peer with
  | none => (false, c)
  | some p =>
    match p.links with
    | [] => (false, c)
    | l :: _ => (true, sendLink close l frame c)

/-- `Core.place` -/
def place (close : Nat → Core → Core) (peer frame : Bytes) (c : Core) : Bool × Core :=
  match c.send close peer frame with
  | (true, c) => (true, c)
  | (false, c) =>
    match c.connecting.get peer with
    | some (l :: _) => (true, sendLink close l frame c)
    | _ => (false, c)

/-! ### Links leaving -/

/-- `Router.remove` -/
def remove (i : Nat) (c : Core) : Core :=
  match c.conns[i]?.bind Conn.peerId with
  | none => c
  | some peer =>
    match c.pools.get peer with
    | none => c
    | some p =>
      if i ∈ p.held then c.setPool peer { p with held := p.held.erase i }
      else if i ∉ p.links then c
      else
        let p := p.unlist (c.relayed i) i
        if p.links ≠ [] then c.setPool peer p
        else if p.held ≠ [] then
          -- A held link is now the only way to the peer.
          c.setPool peer (p.held.foldl (fun p l => p.list (c.relayed l) l) { p with held := [] })
        else { c with pools := c.pools.delete peer }.peerDown peer

/-- `link.takeQueued()` and `place` for each frame of it. -/
def handOn (close : Nat → Core → Core) (i : Nat) (k : Conn) (peer : Bytes) (c : Core) : Core :=
  k.queue.foldl (fun c frame => (c.place close peer frame).2)
    (c.setConn i fun k => { k with queue := [] })

/-- `Core.forget` for a link that was `k` when it closed. -/
def forget (close : Nat → Core → Core) (i : Nat) (k : Conn) (c : Core) : Core :=
  let c := (c.dropConnecting i).remove i
  match k.peerId.or k.dialedPeerId with
  | none => c
  | some peer =>
    let c := c.handOn close i k peer
    if !k.authed && c.linkCount peer = 0 && !c.connecting.has peer then c.peerDown peer else c

/-- `link.end(farewell)`: the links that end inside it end one level below. -/
def endLink : Nat → Bool → Nat → Core → Core
  | 0, _, _, c => c
  | n + 1, farewell, i, c =>
    match c.conns[i]? with
    | none => c
    | some k =>
      if k.closed then c
      else forget (endLink n false) i k (c.setConn i (Conn.shut farewell))

/-- Each level closes one more link, so as many levels as there are links do. -/
def depth (c : Core) : Nat := c.conns.length + 1

def close (i : Nat) (c : Core) : Core := endLink c.depth true i c

def abort (i : Nat) (c : Core) : Core := endLink c.depth false i c

/-! ### Links arriving -/

/-- Keep the link whose dialer is the lexicographically smaller identity. -/
def canonicalKeep (i : Nat) (peer : Bytes) (c : Core) : Bool :=
  c.weDialed i == decide (c.own < peer)

/-- `Router.retire`: only the end that dialed a losing link closes it. -/
def retire (peer : Bytes) (loser : Nat) (c : Core) : Core :=
  if c.weDialed loser then c.close loser
  else c.modifyPool peer (Pool.hold loser)

def isRival (i : Nat) (c : Core) (l : Nat) : Bool :=
  c.weDialed l != c.weDialed i && c.relayed l == c.relayed i

/-- `Router.promote` -/
def promote (peer : Bytes) (i : Nat) (c : Core) : Bool × Core :=
  match c.pools.get peer with
  | none => (true, c.setPool peer (Pool.empty.list (c.relayed i) i))
  | some p =>
    match p.links.find? (c.isRival i) with
    | none => (true, c.setPool peer (p.list (c.relayed i) i))
    | some r =>
      if !c.canonicalKeep i peer then (false, c.retire peer i)
      else
        let c := c.setPool peer (p.unlist (c.relayed r) r)
        let c := c.retire peer r
        (true, c.modifyPool peer (Pool.list (c.relayed i) i))

/-- A frame of the transport's own that asks the peer to close the link it came on. -/
def CTL_RETIRE : Bytes := [0x02, 0x00]

/-- One relayed link is no longer written, and its peer is asked to close it. -/
def retireOne (peer : Bytes) (c : Core) (l : Nat) : Core :=
  let c := c.modifyPool peer fun p => (p.unlist (c.relayed l) l).hold l
  c.sendLink (endLink c.depth false) l CTL_RETIRE

/-- `Router.retireRelayed` -/
def retireRelayed (peer : Bytes) (c : Core) : Core :=
  match c.pools.get peer with
  | none => c
  | some p => if p.direct = 0 then c else (p.links.drop p.direct).foldl (retireOne peer) c

/-- `Core.onAuth`; `pumped` are the requests held back from the relay. -/
def onAuth (peer : Bytes) (i : Nat) (pumped : List Bytes) (c : Core) : Core :=
  match (c.dropConnecting i).promote peer i with
  | (false, c) => c
  | (true, c) =>
    if c.relayed i then c
    else
      let c := pumped.foldl (fun c f => (c.place (endLink c.depth false) peer f).2) c
      if c.weDialed i then c else c.retireRelayed peer

/-- The frames queued before the link was authenticated go out on it, unless it has closed. -/
def flush (i : Nat) (c : Core) : Core :=
  match c.conns[i]? with
  | none => c
  | some k =>
    if k.closed then c
    else c.setConn i fun k => { k with queue := [], wire := k.wire ++ k.queue.map .frame }

/-- `becomeAuthed`; the limiter may have no place for the link. -/
def becomeAuthed (i : Nat) (peer : Bytes) (granted : Bool) (pumped : List Bytes) (c : Core) :
    Core :=
  match c.conns[i]? with
  | none => c
  | some k =>
    if k.closed || k.authed then c
    else
      let peer := k.dialedPeerId.getD peer
      let c := c.setConn i fun k => { k with authed := true, peerId := some peer }
      if granted then (c.onAuth peer i pumped).flush i else c.abort i

/-- The peer's goodbye. -/
def onGoodbye (i : Nat) (c : Core) : Core :=
  match c.conns[i]? with
  | none => c
  | some k =>
    if k.closed || !k.authed then c
    else (c.setConn i fun k => { k with peerSaidGoodbye := true }).close i

/-- `Core.onControl` for a retire. -/
def onRetire (i : Nat) (c : Core) : Core :=
  match c.conns[i]? with
  | none => c
  | some k =>
    match k.peerId with
    | none => c
    | some peer => if !k.closed && k.relayed && c.hasDirect peer then c.close i else c

/-- `Core.openLink` for a dial of `dialed`, or for an accepted channel. -/
def openLink (dialed : Option Bytes) (relayed : Bool) (room : Nat) (c : Core) : Core :=
  let i := c.conns.length
  let c := { c with conns := c.conns ++ [⟨dialed, none, relayed, false, false, false, [], room, []⟩] }
  match dialed with
  | none => c
  | some peer => c.pushConnecting peer i

/-- What happens to a node's links. -/
inductive Event where
  | opened (dialed : Option Bytes) (relayed : Bool) (room : Nat)
  | authed (i : Nat) (peer : Bytes) (granted : Bool) (pumped : List Bytes)
  | close (i : Nat)
  | abort (i : Nat)
  | goodbye (i : Nat)
  | retire (i : Nat)
  | retireRelayed (peer : Bytes)
  | send (peer frame : Bytes)
  | sendOn (peer : Bytes) (link : Nat) (frame : Bytes)
  | sendInOrder (peer frame : Bytes)
  | place (peer frame : Bytes)
  /-- A link's records leave its queue, or its epochs run out. -/
  | room (i n : Nat)

def step (c : Core) : Event → Core
  | .opened dialed relayed room => c.openLink dialed relayed room
  | .authed i peer granted pumped => c.becomeAuthed i peer granted pumped
  | .close i => c.close i
  | .abort i => c.abort i
  | .goodbye i => c.onGoodbye i
  | .retire i => c.onRetire i
  | .retireRelayed peer => c.retireRelayed peer
  | .send peer frame => (c.send (endLink c.depth false) peer frame).2
  | .sendOn peer link frame => (c.sendOn (endLink c.depth false) peer link frame).2
  | .sendInOrder peer frame => (c.sendInOrder (endLink c.depth false) peer frame).2
  | .place peer frame => (c.place (endLink c.depth false) peer frame).2
  | .room i n => c.setConn i fun k => { k with room := n }

def run (c : Core) (evs : List Event) : Core := evs.foldl step c

end Core

end SeedTransport
