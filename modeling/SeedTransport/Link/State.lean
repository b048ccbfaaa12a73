import SeedTransport.Util
import SeedTransport.Lib.Async

set_option autoImplicit false

namespace SeedTransport

/-! The state of a link (`ake.js`, class `Link`), what it asks of the host, and its methods
that run to their end at once. -/

def PK_LEN : Nat := 32
def EPH_LEN : Nat := 32
def SIG_LEN : Nat := 64
def TAG_LEN : Nat := 16
def SUITE_LEN : Nat := 1
def NPUB_LEN : Nat := 12
def KEM_PK_LEN : Nat := 1184
def KEM_SK_LEN : Nat := 2400
def KEM_CT_LEN : Nat := 1088
def KEM_SS_LEN : Nat := 32
def M1_LEN : Nat := SUITE_LEN + EPH_LEN + KEM_PK_LEN + TAG_LEN
def M2_LEN : Nat := EPH_LEN + KEM_CT_LEN + SIG_LEN + TAG_LEN
def M3_LEN : Nat := PK_LEN + SIG_LEN + TAG_LEN

def SUITE_CHANNEL_CONCEALED : UInt8 := 0x03
def SUITE_BYTE : Bytes := [SUITE_CHANNEL_CONCEALED]
def ZERO_NPUB : Bytes := List.replicate NPUB_LEN 0
def X25519_BASEPOINT : Bytes := 9 :: List.replicate 31 0
def EMPTY : Bytes := []

def utf8Encode (s : String) : Bytes := s.toList.map fun c => UInt8.ofNat c.toNat

def LABEL_REKEY : Bytes := utf8Encode "seedkernel-session-rekey-v1\x00"
def LABEL_PROBE : Bytes := utf8Encode "seedkernel-c-probe-v1\x00"
def LABEL_M2 : Bytes := utf8Encode "seedkernel-c-msg2-v1\x00"
def LABEL_M3 : Bytes := utf8Encode "seedkernel-c-msg3-v1\x00"
def LABEL_I2R : Bytes := utf8Encode "seedkernel-session-i->r-v1\x00"
def LABEL_R2I : Bytes := utf8Encode "seedkernel-session-r->i-v1\x00"
def DOMAIN_CHANNEL : Bytes := utf8Encode "seedkernel-channel-id-v1\x00"
def DOMAIN_CONTACT : Bytes := utf8Encode "seedkernel-contact-secret-v1\x00"

/-- Ratchets per direction before the link retires. -/
def REJECT_AFTER_EPOCHS : Nat := 2 ^ 16
def MAX_QUEUE_BYTES : Nat := 1024 * 1024
def MAX_SEEN_PROBES : Nat := 4096
def MAX_HANDSHAKE_FRAME_BYTES : Nat := 8 * 1024
def maxOutboundQueueSlices : Nat := 4096

/-- What a node's configuration and its identity fix for all its links (`core.js`). -/
structure Node where
  ownPk : Bytes
  maxFrameBytes : Nat
  maxPreAuthQueueSlices : Nat
  maxVerified : Nat
  maxAuthed : Nat
  handshakeTimeoutMs : Nat
  unverifiedTimeoutMs : Nat
  /-- The peers the lint lets in, or everyone. -/
  admitPeers : Option (List Bytes)

def Node.maxOutboundQueueBytes (n : Node) : Nat := 8 * n.maxFrameBytes

/-- Where an accept's secrets come from: the node's contact secret and its extra ones, or a
list of its own. -/
inductive SecretSource where
  | node
  | own (secrets : List Bytes)

/-- What a link is made with. Peers are named by their key's bytes. The codec of a stream is
outside the link: it hands over whole messages or finds fault with the bytes. -/
structure Spec where
  weDialed : Bool
  dialedPeerId : Bytes
  acceptPeerId : Option Bytes
  linkSecret : Option Bytes
  acceptSecrets : SecretSource
  networkKey : Bytes
  lint : Bool
  idleMs : Nat
  rekeyAfterFrames : Nat
  /-- The codec says a goodbye of its own. -/
  framerGoodbye : Bool
  /-- The half-open limiter counts this link. -/
  limited : Bool

/-- The load takes no other rekey count. -/
def Spec.Loads (sp : Spec) : Prop := 1 ≤ sp.rekeyAfterFrames ∧ sp.rekeyAfterFrames ≤ 2 ^ 32

/-- The node's own secret, kept once the key has signed for it: asked for by nobody, by a
link that still waits, or known. -/
inductive OwnKeySecret where
  | absent
  | asked
  | known (secret : Bytes)
  deriving DecidableEq

/-- What a node's links share. -/
structure Realm where
  seenProbes : List Bytes
  contactSecret : Option Bytes
  extraSecrets : List Bytes
  ownKeySecret : OwnKeySecret
  now : Nat

inductive Tier where
  | unverified
  | verified
  | authed
  deriving DecidableEq

/-- The link's place in the limiter. -/
structure Slot where
  tier : Tier
  released : Bool

structure KeyPair where
  publicKey : Bytes
  privateKey : Bytes

/-- The calls a link makes and waits on: the host's, its channel's, and the callbacks it was
made with. -/
inductive Call where
  | hash (msg : Bytes)
  | random (n : Nat)
  | dh (sk pk : Bytes)
  | kemKeypair (seed : Bytes)
  | kemEncaps (pk coins : Bytes)
  | kemDecaps (sk ct : Bytes)
  | aeadSeal (key npub msg : Bytes)
  | aeadOpen (key npub ct : Bytes)
  | sign (msg : Bytes)
  | verify (pk sig msg : Bytes)
  | wire (msg : Bytes)
  | framerGoodbye
  | onAuth (peerId : Bytes)
  | onFrame (peerId pt : Bytes)
  /-- The secret another link of this node has asked the key for. -/
  | sharedKeySecret
  | turn
  deriving DecidableEq

/-- A step of the work chain. -/
inductive Job where
  | boot
  | message (m : Bytes)
  | record (frame : Bytes)
  | farewell
  deriving DecidableEq

/-- Where one direction of the record layer stands. -/
structure Pos where
  epoch : Nat
  ctr : Nat
  key : Option Bytes
  deriving DecidableEq

/-- How a link came to an end. -/
inductive How where
  | close
  | abort
  | lost
  deriving DecidableEq

/-- A call that ended a link, or found it ended: what the link stood at then. -/
structure Ending where
  how : How
  authed : Bool
  peerSaidGoodbye : Bool
  deriving DecidableEq

/-- What a link's work leaves on record, for an observer to read: the calls it makes with
their answers, the messages it takes up, and the steps of its handshake and records. -/
inductive Mark where
  | asked (c : Call)
  | done (c : Call) (answer : Option Bytes)
  | took (m : Bytes)
  | secrets (list : List Bytes)
  | probed (eph : Bytes)
  | session (peerId : Bytes) (th : Option Bytes) (sendKey recvKey : Bytes)
  | seals (here : Pos) (frame : Bytes) (ends : List Ending)
  | sealed (before : Pos) (frame ct : Bytes) (after : Pos)
  | accepted (before : Pos) (pt : Bytes) (after : Pos)
  deriving DecidableEq

/-- What a link does to the outside without waiting. -/
inductive Effect where
  | onClose
  | channelClose (graceful : Bool)
  | releaseSlot
  deriving DecidableEq

/-- `marks` and what follows are for an observer: what the link did, the frames `send` took,
how many of the oldest it dropped again or handed on, and the calls that ended it. -/
structure Link where
  node : Node
  spec : Spec
  realm : Realm
  root : Option Bytes
  contactSecret : Option Bytes
  peerPubkey : Option Bytes
  peerId : Bytes
  authed : Bool
  peerSaidGoodbye : Bool
  myEph : Option KeyPair
  myKem : Option KeyPair
  kemSecret : Option Bytes
  ee : Option Bytes
  peerEph : Option Bytes
  th : Option Bytes
  queue : List Bytes
  queuedBytes : Nat
  outboundQueuedBytes : Nat
  outboundQueuedSlices : Nat
  closed : Bool
  parting : Bool
  stalled : Bool
  closedLocally : Bool
  aborted : Bool
  timedOut : Bool
  slot : Option Slot
  /-- When the handshake deadline or the idle window ends; `none` is never. -/
  due : Option Nat
  lastSeen : Nat
  sendKey : Option Bytes
  recvKey : Option Bytes
  sendEpoch : Nat
  sendCtr : Nat
  recvEpoch : Nat
  recvCtr : Nat
  work : List Job
  marks : List Mark
  effects : List Effect
  accepted : List Bytes
  shed : Nat
  ends : List Ending

namespace Link

def sendPos (l : Link) : Pos := ⟨l.sendEpoch, l.sendCtr, l.sendKey⟩

def recvPos (l : Link) : Pos := ⟨l.recvEpoch, l.recvCtr, l.recvKey⟩

def mark (m : Mark) (l : Link) : Link := { l with marks := l.marks ++ [m] }

def enqueue (j : Job) (l : Link) : Link := { l with work := l.work ++ [j] }

def now (l : Link) : Nat := l.realm.now

/-! ### Deadlines -/

def dueIn (l : Link) (ms : Nat) : Option Nat := if 0 < ms then some (l.now + ms) else none

def armDeadline (ms : Nat) (l : Link) : Link := { l with due := l.dueIn ms }

def armIdle (l : Link) : Link := { l with lastSeen := l.now, due := l.dueIn l.spec.idleMs }

/-- Only the clock moves here: the limiter's eviction order is the limiter's own. -/
def markTraffic (l : Link) : Link := { l with lastSeen := l.now }

/-! ### Teardown -/

def clearEphemeral (l : Link) : Link :=
  { l with myEph := none, myKem := none, ee := none, kemSecret := none }

/-- A slot the limiter took back already is only forgotten. -/
def releaseSlot (l : Link) : Link :=
  match l.slot with
  | none => l
  | some s =>
    { l with slot := none, effects := l.effects ++ if s.released then [] else [.releaseSlot] }

/-- The pre-auth queue stays. -/
def teardown (l : Link) : Link :=
  clearEphemeral { releaseSlot { l with due := none } with sendKey := none, recvKey := none }

def noteEnd (how : How) (l : Link) : Link :=
  { l with ends := l.ends ++ [⟨how, l.authed, l.peerSaidGoodbye⟩] }

/-- `end(farewell, defensive)` -/
def endLink (farewell defensive : Bool) (l : Link) : Link :=
  if l.closed then
    if farewell then l.noteEnd .close else { l.noteEnd .abort with parting := false }
  else
    enqueue .farewell
      { l.noteEnd (if farewell then .close else .abort) with
        closed := true
        parting := farewell && !l.peerSaidGoodbye && decide (l.sendEpoch < REJECT_AFTER_EPOCHS)
        closedLocally := true
        aborted := l.aborted || defensive
        effects := l.effects ++ [.onClose] }

def close (l : Link) : Link := l.endLink true false

def abort (defensive : Bool) (l : Link) : Link := l.endLink false defensive

/-- Refuse without saying so. -/
def stall (l : Link) : Link :=
  if l.stalled then l else clearEphemeral { l with stalled := true, aborted := true }

def refuse (l : Link) : Link := if l.authed then l.abort true else l.stall

/-- The socket went away. -/
def onChannelClosed (l : Link) : Link :=
  if l.closed then l
  else
    let torn := teardown (noteEnd .lost { l with closed := true })
    { torn with effects := torn.effects ++ [.onClose] }

/-- The limiter takes the slot back, for another link. -/
def loseSlot (l : Link) : Link :=
  match l.slot with
  | none => l
  | some s =>
    { l with
      slot := some { s with released := true }
      effects := l.effects ++ if s.released then [] else [.releaseSlot] }

def evict (l : Link) : Link := abort false l.loseSlot

/-! ### Sending -/

/-- Drop the oldest frames past either bound, keeping the newest. -/
def dropOldest (maxSlices : Nat) : List Bytes → Nat → List Bytes × Nat
  | f :: g :: q, bytes =>
    if MAX_QUEUE_BYTES < bytes ∨ maxSlices < (f :: g :: q).length then
      dropOldest maxSlices (g :: q) (bytes - f.length)
    else (f :: g :: q, bytes)
  | q, bytes => (q, bytes)

def send (frame : Bytes) (l : Link) : Link :=
  if l.closed then l
  else if l.node.maxFrameBytes < frame.length + TAG_LEN then l
  else if frame.length = 0 then l
  else if l.authed then
    if REJECT_AFTER_EPOCHS ≤ l.sendEpoch then l.close
    else if maxOutboundQueueSlices ≤ l.outboundQueuedSlices ∨
        l.node.maxOutboundQueueBytes < frame.length + l.outboundQueuedBytes then l.abort false
    else
      enqueue (.record frame)
        { markTraffic l with
          outboundQueuedSlices := l.outboundQueuedSlices + 1
          outboundQueuedBytes := l.outboundQueuedBytes + frame.length
          accepted := l.accepted ++ [frame] }
  else
    let q := dropOldest l.node.maxPreAuthQueueSlices (l.queue ++ [frame])
      (l.queuedBytes + frame.length)
    { l with
      queue := q.1
      queuedBytes := q.2
      accepted := l.accepted ++ [frame]
      shed := l.shed + ((l.queue ++ [frame]).length - q.1.length) }

/-- Hand over the frames still waiting for authentication. -/
def takeQueued (l : Link) : Link := { l with queue := [], queuedBytes := 0 }

/-- Hand them over to another link. -/
def handOn (l : Link) : Link := takeQueued { l with shed := l.shed + l.queue.length }

/-! ### Inbound bytes and deadlines -/

/-- Inbound bytes of a link the platform frames. -/
def onWire (bytes : Bytes) (l : Link) : Link :=
  if l.closed || l.stalled then l
  else if (if l.authed then l.node.maxFrameBytes else MAX_HANDSHAKE_FRAME_BYTES) < bytes.length then
    l.refuse
  else l.enqueue (.message bytes)

def onWake (t : Nat) (l : Link) : Link :=
  match l.due with
  | none => l
  | some due =>
    if t < due then l
    else if l.closed then { l with due := none }
    else if !l.authed then abort false { l with due := none, timedOut := true }
    else if l.spec.idleMs = 0 then { l with due := none }
    else if t - l.lastSeen < l.spec.idleMs then
      { l with due := some (l.lastSeen + l.spec.idleMs) }
    else close { l with due := none }

/-! ### The limiter -/

/-- Move to a tier (`LinkLimiter.move`): refused only by a tier with no room at all. -/
def moveTier (tier : Tier) (max : Nat) (l : Link) : Link :=
  { l with slot := l.slot.map fun s =>
      if s.released || s.tier = tier || max = 0 then s else { s with tier := tier } }

def tierRefused (tier : Tier) (max : Nat) (l : Link) : Bool :=
  match l.slot with
  | none => false
  | some s => !(s.released || s.tier = tier) && max = 0

end Link

/-- What may happen to a link from outside its work chain. -/
inductive Input where
  | send (frame : Bytes)
  | close
  | abort
  | wire (bytes : Bytes)
  /-- The codec has a whole message. -/
  | deliver (m : Bytes)
  /-- The codec finds fault with the bytes. -/
  | badFraming
  | wake (t : Nat)
  | channelClosed
  | evict
  | takeQueued
  /-- Time passes, other links and the node change what they share. -/
  | realm (r : Realm)

def Link.input (i : Input) (l : Link) : Link :=
  match i with
  | .send frame => l.send frame
  | .close => l.close
  | .abort => l.abort false
  | .wire bytes => l.onWire bytes
  | .deliver m => l.enqueue (.message m)
  | .badFraming => l.refuse
  | .wake t => l.onWake t
  | .channelClosed => l.onChannelClosed
  | .evict => l.evict
  | .takeQueued => l.handOn
  | .realm r => { l with realm := r }

end SeedTransport
