import SeedTransport.Util
import SeedTransport.Lib.OrdMap

set_option autoImplicit false

namespace SeedTransport

/-! UDP paths (`udp.js`): the sockets of the realm and the negotiations they serve. The stream
of a negotiation and the signaling on its other side are outside: what they do to it in the
middle of a call comes in as an effect of that call. -/

def TYPE_PROBE : UInt8 := 0x70
def TYPE_PROBE_ACK : UInt8 := 0x71
def TOKEN : Nat := 8
def PROBE_BYTES : Nat := 1 + 2 * TOKEN + 8
def PROBE_ACK_BYTES : Nat := 1 + TOKEN + 8
def PATH_HEADER : Nat := 9
def PROBE_MS : ℚ := 50
def FOLLOW_MS : ℚ := 1000
def MAX_PEER_CANDIDATES : Nat := 16
def STUN_TRIES : Nat := 4
def STUN_RETRY_MS : ℚ := 500
def BIRTHDAY_AFTER_MS : ℚ := 1000
def BIRTHDAY_SOCKETS : Int := 256
def BIRTHDAY_BINDS : Nat := 8
def MAX_NODE_BIRTHDAY_SOCKETS : Int := 1024
def SPRAY_EACH : Nat := 64
def SPRAY_MAX : Nat := 4096
def SPRAY_LOW : Nat := 1024
def SPRAY_PORTS : Nat := 65536 - SPRAY_LOW
def SPARE : Nat := 64

/-- An address, as sent to: `port` 0 is `host:*`. -/
structure Addr where
  host : String
  port : Nat
  deriving DecidableEq

/-! ### STUN -/

def STUN_COOKIE : Nat := 0x2112a442
def STUN_BINDING_REQUEST : Nat := 0x0001
def STUN_BINDING_SUCCESS : Nat := 0x0101
def STUN_XOR_MAPPED_ADDRESS : Nat := 0x0020

def bindingRequest (txn : Bytes) : Bytes :=
  writeU16BE STUN_BINDING_REQUEST ++ writeU16BE 0 ++ writeU32BE STUN_COOKIE ++ txn

def isStun (msg : Bytes) : Bool :=
  decide (20 ≤ msg.length) && decide (byteAt msg 0 < 2) && decide (readU32BE msg 4 = STUN_COOKIE)

/-- The attributes from `off` on, at most `fuel` of them. -/
def mappedLoop (msg : Bytes) : Nat → Nat → Option Addr
  | 0, _ => none
  | fuel + 1, off =>
    if msg.length < off + 4 then none
    else
      let len := readU16BE msg (off + 2)
      if msg.length < off + 4 + len then none
      else if readU16BE msg off ≠ STUN_XOR_MAPPED_ADDRESS ∨ len ≠ 8 ∨ byteAt msg (off + 5) ≠ 1 then
        mappedLoop msg fuel (off + 4 + (len + 3) / 4 * 4)
      else
        let octet (i : Nat) : String := toString (byteAt msg (off + 8 + i) ^^^ byteAt msg (4 + i))
        some
          { host := octet 0 ++ "." ++ octet 1 ++ "." ++ octet 2 ++ "." ++ octet 3
            port := readU16BE msg (off + 6) ^^^ (STUN_COOKIE / 2 ^ 16) }

/-- The address a Binding success for `txn` names, or nothing for anything else. -/
def mappedAddress (msg txn : Bytes) : Option Addr :=
  if readU16BE msg 0 ≠ STUN_BINDING_SUCCESS ∨ readU16BE msg 2 + 20 ≠ msg.length then none
  else if (msg.drop 8).take 12 ≠ txn then none
  else mappedLoop msg msg.length 20

/-! ### The sockets -/

/-- The socket tables of a realm. `opened` is the host's: the sockets bound and not closed. -/
structure UdpSockets where
  listeners : OrdMap Nat Nat
  birthdayBudget : Int
  opened : List Nat

namespace UdpSockets

def takeSockets (n : Int) (u : UdpSockets) : Int × UdpSockets :=
  let got := min n u.birthdayBudget
  (got, { u with birthdayBudget := u.birthdayBudget - got })

def freeSockets (n : Int) (u : UdpSockets) : UdpSockets :=
  { u with birthdayBudget := u.birthdayBudget + n }

def listen (id n : Nat) (u : UdpSockets) : UdpSockets :=
  { u with listeners := u.listeners.set id n }

def close (id : Nat) (u : UdpSockets) : UdpSockets :=
  { u with listeners := u.listeners.delete id, opened := u.opened.filter fun x => x ≠ id }

end UdpSockets

/-! ### One negotiation -/

/-- An address being probed before the path moves there. -/
structure Moving where
  addr : Addr
  challenge : Bytes
  sentAt : ℚ
  heard : ℚ
  deriving DecidableEq

/-- What a negotiation sent and heard, for an observer: `echo` is an answer to a probe that
came in, `heard` a packet that shows the peer at an address, and `took` and `moved` are what
became of the path. -/
inductive PathMark where
  | sent (socket : Nat) (addr : Addr) (p : Bytes)
  | echo (addr : Addr) (challenge : Bytes)
  | heard (t : ℚ) (addr : Addr)
  | took (addr : Addr) (challenge : Bytes)
  | moved (addr : Addr) (challenge : Bytes)
  deriving DecidableEq

/-- `started` is whether it has its `sink`. `left` and `binds` belong to the birthday's
closure: the binds still to ask for, and those in flight. `reserves` counts, for an observer,
how often it took from the budget and kept what it got. -/
structure Negotiation where
  offer : Bool
  token : Bytes
  challenge : Bytes
  asking : List (Addr × Bytes)
  mapped : List Addr
  spare : Bytes
  spareAt : Nat
  refilling : Bool
  started : Bool
  peerToken : Option Bytes
  peerCandidates : List Addr
  peerHard : List Addr
  socket : Nat
  extra : Option (List Nat)
  path : Option Addr
  pathHeard : ℚ
  moving : Option Moving
  roundAt : WithTop ℚ
  rounds : Nat
  stunAt : WithTop ℚ
  stunTries : Nat
  spraying : Bool
  sprayed : Nat
  reservedExtra : Int
  dead : Bool
  left : Int
  binds : Nat
  reserves : Nat
  log : List PathMark

/-- A negotiation at work: its place in the table, the time, and the realm's sockets. -/
structure Punch where
  self : Negotiation
  udp : UdpSockets
  n : Nat
  now : ℚ

/-- What the other side of a call does: whether the negotiation is closed in the middle of
it, by the signaling or the stream, and the random numbers it draws. -/
structure Fx where
  closes : Bool
  random : Nat → Nat

namespace Negotiation

def sockets (g : Negotiation) : List Nat := g.socket :: g.extra.getD []

/-- Two STUN answers differ. -/
def hard (g : Negotiation) : Bool := g.mapped.any fun m => m ≠ g.mapped.headD m

def easy (g : Negotiation) : Bool := decide (2 ≤ g.mapped.length) && !g.hard

/-- `[PROBE][peer's token][own token][challenge]`. -/
def probeOf (g : Negotiation) (challenge : Bytes) : Bytes :=
  [TYPE_PROBE] ++ g.peerToken.getD [] ++ g.token ++ challenge

def probePacket (g : Negotiation) : Bytes := g.probeOf g.challenge

/-- A negotiation as its constructor leaves it. -/
def create (offer : Bool) (stun : List Addr) (socket : Nat) (entropy : Bytes) : Negotiation where
  offer := offer
  token := entropy.take TOKEN
  challenge := (entropy.drop TOKEN).take TOKEN
  asking := stun.mapIdx fun i server => (server, (entropy.drop (2 * TOKEN + 12 * i)).take 12)
  mapped := []
  spare := entropy.drop (2 * TOKEN + 12 * stun.length)
  spareAt := 0
  refilling := false
  started := false
  peerToken := none
  peerCandidates := []
  peerHard := []
  socket := socket
  extra := none
  path := none
  pathHeard := 0
  moving := none
  roundAt := ⊤
  rounds := 0
  stunAt := ⊤
  stunTries := STUN_TRIES
  spraying := false
  sprayed := 0
  reservedExtra := 0
  dead := false
  left := 0
  binds := 0
  reserves := 0
  log := []

end Negotiation

namespace Punch

/-- Set fields of the negotiation. -/
def upd (f : Negotiation → Negotiation) (c : Punch) : Punch := { c with self := f c.self }

def onUdp (f : UdpSockets → UdpSockets) (c : Punch) : Punch := { c with udp := f c.udp }

def mark (m : PathMark) (c : Punch) : Punch := c.upd fun g => { g with log := g.log ++ [m] }

def sendto (id : Nat) (to' : Addr) (p : Bytes) (c : Punch) : Punch := c.mark (.sent id to' p)

/-- The packet `p` to each of `addrs`, from socket `id`. -/
def sendEach (id : Nat) (addrs : List Addr) (p : Bytes) (c : Punch) : Punch :=
  addrs.foldl (fun c a => c.sendto id a p) c

/-- Return the birthday sockets to the budget. -/
def freeExtra (c : Punch) : Punch :=
  if 0 < c.self.reservedExtra then
    (c.onUdp fun u => u.freeSockets c.self.reservedExtra).upd fun g => { g with reservedExtra := 0 }
  else c

/-- Close every socket but `keep` and return the birthday sockets to the budget. -/
def keepOnly (keep : Nat) (c : Punch) : Punch :=
  ((c.onUdp fun u => (c.self.sockets.filter fun id => id ≠ keep).foldl (fun u id => u.close id) u).upd
    fun g => { g with socket := keep, extra := some [] }).freeExtra

def stopPunching (c : Punch) : Punch := c.upd fun g => { g with roundAt := ⊤, stunAt := ⊤ }

def close (c : Punch) : Punch :=
  if c.self.dead then c
  else ((c.upd fun g => { g with dead := true }).stopPunching).keepOnly 0

/-- What the call's other side does. -/
def closeIf (b : Bool) (c : Punch) : Punch := if b then c.close else c

/-- Ask for one more birthday socket. -/
def next (c : Punch) : Punch :=
  if c.self.left = 0 ∨ c.self.dead = true ∨ c.self.path ≠ none then c
  else c.upd fun g => { g with left := g.left - 1, binds := g.binds + 1 }

/-- The hard end's half of `birthday`. -/
def openBirthday (c : Punch) : Punch :=
  if c.self.hard = true ∧ c.self.peerHard = [] ∧ c.self.peerCandidates ≠ [] ∧ c.self.extra = none then
    let got := (c.udp.takeSockets BIRTHDAY_SOCKETS).1
    let c := (c.onUdp fun u => (u.takeSockets BIRTHDAY_SOCKETS).2).upd fun g =>
      { g with extra := some [], reservedExtra := got, left := got, reserves := g.reserves + 1 }
    (List.range BIRTHDAY_BINDS).foldl (fun c _ => c.next) c
  else c

/-- The easy end's half. -/
def startSpray (c : Punch) : Punch :=
  if c.self.spraying = false ∧ c.self.easy = true ∧ c.self.peerHard ≠ [] then
    let got := (c.udp.takeSockets BIRTHDAY_SOCKETS).1
    let c := c.onUdp fun u => (u.takeSockets BIRTHDAY_SOCKETS).2
    if got = BIRTHDAY_SOCKETS then
      c.upd fun g => { g with reservedExtra := got, spraying := true, reserves := g.reserves + 1 }
    else c.onUdp fun u => u.freeSockets got
  else c

def birthday (c : Punch) : Punch :=
  if c.self.rounds * PROBE_MS < BIRTHDAY_AFTER_MS ∨ c.self.dead = true ∨ c.self.path ≠ none ∨
      c.self.peerToken = none then c
  else c.openBirthday.startSpray

/-- The random ports a round sprays at. -/
def sprayAddrs (random : Nat → Nat) (peerHard : List Addr) : List Addr :=
  peerHard.zipIdx.flatMap fun h => (List.range SPRAY_EACH).map fun i =>
    ⟨h.1.host, SPRAY_LOW + random (h.2 * SPRAY_EACH + i) % SPRAY_PORTS⟩

/-- The random probes of one round. -/
def spray (random : Nat → Nat) (c : Punch) : Punch :=
  if c.self.spraying = true ∧ c.self.sprayed < SPRAY_MAX then
    (c.sendEach c.self.socket (sprayAddrs random c.self.peerHard) c.self.probePacket).upd fun g =>
      { g with sprayed := g.sprayed + SPRAY_EACH * g.peerHard.length }
  else c

/-- A round is counted, and at the right one the birthday begins. -/
def countRound (c : Punch) : Punch :=
  let c := c.upd fun g => { g with rounds := g.rounds + 1 }
  if c.self.rounds * PROBE_MS = BIRTHDAY_AFTER_MS then c.birthday else c

def round (random : Nat → Nat) (c : Punch) : Punch :=
  let c := c.upd fun g => { g with roundAt := ⊤ }
  if c.self.dead = true ∨ c.self.path ≠ none then c
  else
    let at' : WithTop ℚ := ((c.now + PROBE_MS : ℚ) : WithTop ℚ)
    (((c.sendEach c.self.socket c.self.peerCandidates c.self.probePacket).spray random).countRound).upd
      fun g => { g with roundAt := at' }

/-- Start the probe rounds, once there is someone to probe. -/
def probe (random : Nat → Nat) (c : Punch) : Punch :=
  if c.self.dead = true ∨ c.self.path ≠ none ∨ c.self.roundAt ≠ ⊤ ∨ c.self.peerToken = none ∨
      c.self.peerCandidates = [] then c
  else c.round random

def addPeer (a : Addr) (random : Nat → Nat) (c : Punch) : Punch :=
  if MAX_PEER_CANDIDATES ≤ c.self.peerCandidates.length + c.self.peerHard.length then c
  else if a.port = 0 then
    if c.self.peerHard.any fun h => h.host = a.host then c
    else (c.upd fun g => { g with peerHard := g.peerHard ++ [a] }).birthday
  else if a ∈ c.self.peerCandidates then c
  else
    let c := c.upd fun g => { g with peerCandidates := g.peerCandidates ++ [a] }
    ((c.self.extra.getD []).foldl (fun c id => c.sendto id a c.self.probePacket) c).probe random

/-- Ask every STUN server not yet answered. -/
def askStun (c : Punch) : Punch :=
  let c := c.upd fun g => { g with stunAt := ⊤ }
  if c.self.dead = true ∨ c.self.stunTries = 0 ∨ c.self.asking = [] then c
  else
    let at' : WithTop ℚ := ((c.now + STUN_RETRY_MS : ℚ) : WithTop ℚ)
    (c.self.asking.foldl (fun c a => c.sendto c.self.socket a.1 (bindingRequest a.2)) c).upd fun g =>
      { g with stunTries := g.stunTries - 1, stunAt := at' }

/-- A STUN server's answer: what it makes of this end goes up to the signaling. -/
def onMapped (a : Addr) (fx : Fx) (c : Punch) : Punch :=
  ((c.upd fun g => { g with mapped := g.mapped ++ [a] }).closeIf fx.closes).birthday

/-- The first server whose answer `p` is. -/
def onStun (p : Bytes) (fx : Fx) (c : Punch) : Punch :=
  match c.self.asking.findIdx? fun a => (mappedAddress p a.2).isSome with
  | none => c
  | some i =>
    match c.self.asking[i]?.bind fun a => mappedAddress p a.2 with
    | none => c
    | some a => (c.upd fun g => { g with asking := g.asking.eraseIdx i }).onMapped a fx

/-- A birthday socket, bound: it probes the peer. -/
def addExtra (s : Option Nat) (c : Punch) : Punch :=
  match s with
  | none => c
  | some id =>
    if c.self.dead = true ∨ c.self.path ≠ none then c.onUdp fun u => u.close id
    else
      let c := (c.upd fun g => { g with extra := some (g.extra.getD [] ++ [id]) }).onUdp fun u => u.listen id c.n
      c.sendEach id c.self.peerCandidates c.self.probePacket

/-- A birthday bind ends. -/
def extraBound (s : Option Nat) (c : Punch) : Punch :=
  ((c.upd fun g => { g with binds := g.binds - 1 }).addExtra s).next

/-- Eight bytes of the spare entropy, or nothing while it is drawn again. -/
def fresh (c : Punch) : Option Bytes × Punch :=
  if c.self.spare.length < c.self.spareAt + 8 then
    (none, c.upd fun g => { g with refilling := g.refilling || !g.dead })
  else
    (some ((c.self.spare.drop c.self.spareAt).take 8), c.upd fun g => { g with spareAt := g.spareAt + 8 })

/-- The draw ends; a failed one leaves nothing. -/
def refilled (b : Option Bytes) (c : Punch) : Punch :=
  match b with
  | none => c.upd fun g => { g with refilling := false }
  | some b => c.upd fun g => { g with refilling := false, spare := b, spareAt := 0 }

/-- Challenge the address of `m`. -/
def challengeMove (m : Moving) (c : Punch) : Punch :=
  let m := { m with sentAt := c.now }
  (c.upd fun g => { g with moving := some m }).sendto c.self.socket m.addr (c.self.probeOf m.challenge)

/-- The peer's packets come from an address that is not the path. -/
def probeMove (a : Addr) (c : Punch) : Punch :=
  if c.self.offer = false ∧ c.now - c.self.pathHeard < FOLLOW_MS then c
  else
    match c.self.moving.filter fun m => m.addr = a with
    | some m =>
      let m := { m with heard := c.now }
      if c.now - m.sentAt < PROBE_MS then c.upd fun g => { g with moving := some m }
      else c.challengeMove m
    | none =>
      match c.fresh with
      | (none, c) => c
      | (some challenge, c) => c.challengeMove ⟨a, challenge, 0, c.now⟩

/-- An answer to a challenge: the path moves, if it came from the address challenged and that
address was heard no earlier than the path. -/
def moved (a : Addr) (echoed : Bytes) (c : Punch) : Punch :=
  match c.self.moving with
  | none => c
  | some m =>
    if m.addr ≠ a ∨ m.heard < c.self.pathHeard then c
    else if echoed ≠ m.challenge then c
    else (c.upd fun g => { g with moving := none, path := some m.addr, pathHeard := m.heard }).mark
      (.moved m.addr echoed)

/-- The path is `a` from socket `id`: the other sockets close, and the stream is the data
link. -/
def choose (id : Nat) (a : Addr) (fx : Fx) (c : Punch) : Punch :=
  if c.self.path ≠ none ∨ c.self.peerToken = none then c
  else
    let now := c.now
    let c := c.upd fun g => { g with path := some a, pathHeard := now }
    let c := (c.mark (.took a c.self.challenge)).mark (.heard now a)
    (c.keepOnly id).stopPunching.closeIf fx.closes

/-- A probe of the peer's: answered, and probed back. -/
def onProbe (id : Nat) (p : Bytes) (a : Addr) (fx : Fx) (c : Punch) : Punch :=
  if p.length ≠ PROBE_BYTES then c
  else
    let token := c.self.peerToken.getD ((p.drop (1 + TOKEN)).take TOKEN)
    let c := c.upd fun g => { g with peerToken := some token }
    let c := c.sendto id a (TYPE_PROBE_ACK :: p.drop (1 + TOKEN))
    let c := if c.self.path = none then c.sendto id a c.self.probePacket else c
    c.addPeer a fx.random

def onProbeAck (id : Nat) (p : Bytes) (a : Addr) (fx : Fx) (c : Punch) : Punch :=
  if p.length ≠ PROBE_ACK_BYTES then c
  else
    let echoed := p.drop (1 + TOKEN)
    let c := c.mark (.echo a echoed)
    if c.self.path ≠ none then c.moved a echoed
    else if echoed = c.self.challenge then c.choose id a fx
    else c

/-- A packet of the stream, once there is a path. -/
def onStream (a : Addr) (fx : Fx) (c : Punch) : Punch :=
  match c.self.path with
  | none => c
  | some path =>
    let now := c.now
    let c := c.mark (.heard now a)
    let c := if a = path then c.upd fun g => { g with pathHeard := now } else c.probeMove a
    c.closeIf fx.closes

def onPacket (id : Nat) (p : Bytes) (a : Addr) (fx : Fx) (c : Punch) : Punch :=
  if c.self.dead = true ∨ a.port < 1 then c
  else if isStun p then c.onStun p fx
  else if p.length < PATH_HEADER ∨ (p.drop 1).take TOKEN ≠ c.self.token then c
  else if p.headD 0 = TYPE_PROBE then c.onProbe id p a fx
  else if p.headD 0 = TYPE_PROBE_ACK then c.onProbeAck id p a fx
  else c.onStream a fx

/-- A description from the peer: its token, or nothing for one malformed or of the wrong
side. -/
def description (token : Option Bytes) (fx : Fx) (c : Punch) : Punch :=
  if c.self.dead then c
  else
    match token.filter fun t => t.length = TOKEN with
    | none => c.close
    | some t => (c.upd fun g => { g with peerToken := some t }).probe fx.random

/-- A candidate from the peer, or nothing for one malformed. -/
def candidate (a : Option Addr) (fx : Fx) (c : Punch) : Punch :=
  if c.self.dead then c
  else
    match a with
    | none => c.close
    | some a => c.addPeer a fx.random

/-- Begin, telling the signaling who this end is. -/
def start (fx : Fx) (c : Punch) : Punch :=
  ((c.upd fun g => { g with started := true }).closeIf fx.closes).askStun.probe fx.random

def onWake (fx : Fx) (c : Punch) : Punch :=
  if c.self.dead then c
  else
    let c := if c.self.stunAt ≤ c.now then c.askStun else c
    let c := if c.self.roundAt ≤ c.now then c.round fx.random else c
    c.closeIf fx.closes

end Punch

/-! ### The node -/

/-- A call of `open` under way: its bind, or, with its socket, its draw of entropy. -/
inductive Opening where
  | binding (offer : Bool) (stun : List Addr)
  | drawing (offer : Bool) (stun : List Addr) (socket : Nat)
  deriving DecidableEq

structure UdpNode where
  now : ℚ
  sockets : UdpSockets
  negs : List Negotiation
  opening : List Opening

/-- What happens to one negotiation. -/
inductive NegEvent where
  | start (fx : Fx)
  | close
  | description (token : Option Bytes) (fx : Fx)
  | candidate (a : Option Addr) (fx : Fx)
  | extraBound (s : Option Nat)
  | refilled (b : Option Bytes)
  | wake (fx : Fx)

inductive UdpEvent where
  | openCall (offer : Bool) (stun : List Addr)
  | openBound (o : Opening) (s : Option Nat)
  | openDrawn (o : Opening) (entropy : Option Bytes)
  | neg (n : Nat) (e : NegEvent)
  | packet (id : Nat) (p : Bytes) (a : Addr) (fx : Fx)
  | elapse (ms : ℚ)

namespace UdpNode

def create : UdpNode := ⟨0, ⟨.empty, MAX_NODE_BIRTHDAY_SOCKETS, []⟩, [], []⟩

/-- The negotiation `n` does `f`. -/
def onNeg (n : Nat) (f : Punch → Punch) (s : UdpNode) : UdpNode :=
  match s.negs[n]? with
  | none => s
  | some g =>
    let c := f ⟨g, s.sockets, n, s.now⟩
    { s with sockets := c.udp, negs := s.negs.set n c.self }

/-- The host gives an id that no open socket has. -/
def fresh (id : Nat) (s : UdpNode) : Bool := decide (id ≠ 0 ∧ id ∉ s.sockets.opened)

def bound (id : Nat) (s : UdpNode) : UdpNode :=
  { s with sockets := { s.sockets with opened := s.sockets.opened ++ [id] } }

def openBound (o : Opening) (r : Option Nat) (s : UdpNode) : UdpNode :=
  match o with
  | .drawing _ _ _ => s
  | .binding offer stun =>
    if o ∈ s.opening then
      let s' := { s with opening := s.opening.erase o }
      match r with
      | none => s'
      | some id =>
        if s.fresh id then { s'.bound id with opening := s'.opening ++ [.drawing offer stun id] } else s
    else s

def openDrawn (o : Opening) (entropy : Option Bytes) (s : UdpNode) : UdpNode :=
  match o with
  | .binding _ _ => s
  | .drawing offer stun id =>
    if o ∈ s.opening then
      let s := { s with opening := s.opening.erase o }
      match entropy.filter fun b => b.length = 2 * TOKEN + 12 * stun.length + SPARE with
      | none => { s with sockets := s.sockets.close id }
      | some b => { s with
          sockets := s.sockets.listen id s.negs.length
          negs := s.negs ++ [Negotiation.create offer stun id b] }
    else s

def negEvent (n : Nat) (s : UdpNode) : NegEvent → UdpNode
  | .start fx => s.onNeg n fun c => if c.self.started then c else c.start fx
  | .close => s.onNeg n Punch.close
  | .description token fx => s.onNeg n (Punch.description token fx)
  | .candidate a fx => s.onNeg n (Punch.candidate a fx)
  | .extraBound r =>
    if ∃ g, s.negs[n]? = some g ∧ 0 < g.binds then
      match r with
      | none => s.onNeg n (Punch.extraBound none)
      | some id => if s.fresh id then (s.bound id).onNeg n (Punch.extraBound (some id)) else s
    else s
  | .refilled b => s.onNeg n (Punch.refilled b)
  | .wake fx => s.onNeg n fun c => if c.self.started then c.onWake fx else c

def step (s : UdpNode) : UdpEvent → UdpNode
  | .openCall offer stun => { s with opening := s.opening ++ [.binding offer stun] }
  | .openBound o r => s.openBound o r
  | .openDrawn o entropy => s.openDrawn o entropy
  | .neg n e => s.negEvent n e
  | .packet id p a fx =>
    match s.sockets.listeners.get id with
    | none => s
    | some n => s.onNeg n (Punch.onPacket id p a fx)
  | .elapse ms => { s with now := s.now + max 0 ms }

def run (s : UdpNode) (evs : List UdpEvent) : UdpNode := evs.foldl step s

end UdpNode

end SeedTransport
