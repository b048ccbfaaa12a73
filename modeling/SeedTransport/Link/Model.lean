import SeedTransport.Link.State

set_option autoImplicit false

namespace SeedTransport

/-! The work of a link (`ake.js`): its handshake, its records and its goodbye, with a wait
wherever the source has an `await` that leaves the realm. Every host answer is bytes; a
refused or failed call is answered `none`. -/

abbrev LinkProg (α : Type) : Type := Async.Prog Link Call Bytes α

open Async Async.Prog

/-- Bytes `from` up to `upTo`, as `slice` and `subarray` take them. -/
def slice (b : Bytes) (start upTo : Nat) : Bytes := (b.take upTo).drop start

/-- A 12-byte nonce from the epoch and the counter. -/
def nonce (epoch ctr : Nat) : Bytes := writeU32BE epoch ++ [0, 0, 0, 0] ++ writeU32BE ctr

/-- The channel's identity-signature payload. -/
def channelIdentityMessage (root th id : Bytes) : Bytes := DOMAIN_CHANNEL ++ root ++ th ++ id

def Node.admits (n : Node) (peer : Bytes) : Bool :=
  match n.admitPeers with
  | none => true
  | some peers => peers.contains peer

namespace Link

/-! ### The seam helpers -/

def hash (msg : Bytes) : LinkProg Bytes := call (.hash msg)

/-- The payload of an answer whose first byte says it succeeded. -/
def okTail : Bytes → Option Bytes
  | 1 :: tail => some tail
  | _ => none

def aeadDec (key npub ct : Bytes) : LinkProg (Option Bytes) := do
  let r ← call (.aeadOpen key npub ct)
  return okTail r

def verify (pk sig msg : Bytes) : LinkProg Bool := do
  let r ← call (.verify pk sig msg)
  return r.head? == some 1

def scalarmult (sk pk : Bytes) : LinkProg (Option Bytes) := do
  let r ← call (.dh sk pk)
  return okTail r

def boxKeypair : LinkProg KeyPair := do
  let sk ← call (.random 32)
  let r ← scalarmult sk X25519_BASEPOINT
  let x ← need r
  return ⟨x, sk⟩

def kemKeypair (seed : Bytes) : LinkProg KeyPair := do
  let r ← call (.kemKeypair seed)
  if r.length ≠ KEM_PK_LEN + KEM_SK_LEN then fail
  else return ⟨r.take KEM_PK_LEN, r.drop KEM_PK_LEN⟩

/-- The ciphertext and the shared secret. -/
def kemEncaps (pk coins : Bytes) : LinkProg (Option (Bytes × Bytes)) := do
  let r ← call (.kemEncaps pk coins)
  return match okTail r with
    | some b =>
      if b.length = KEM_CT_LEN + KEM_SS_LEN then some (b.take KEM_CT_LEN, b.drop KEM_CT_LEN)
      else none
    | none => none

def kemDecaps (sk ct : Bytes) : LinkProg (Option Bytes) := do
  let r ← call (.kemDecaps sk ct)
  return match okTail r with
    | some b => if b.length = KEM_SS_LEN then some b else none
    | none => none

/-- Every link of a network shares one root; here each asks for it, with the same answer. -/
def rootKey (key : Bytes) : LinkProg Bytes := hash (DOMAIN_CHANNEL ++ key)

def setOwnKeySecret (k : OwnKeySecret) (l : Link) : Link :=
  { l with realm := { l.realm with ownKeySecret := k } }

/-- The node's own contact secret: a hash of its signature over the contact domain, asked
for once and kept, and asked again after a failure. -/
def keySecret : LinkProg Bytes := do
  let l ← get
  match l.realm.ownKeySecret with
  | .known secret => do
    turn .turn
    return secret
  | .asked => call .sharedKeySecret
  | .absent =>
    modify (setOwnKeySecret .asked)
    attempt (do
      let sig ← call (.sign DOMAIN_CONTACT)
      let secret ← hash (DOMAIN_CONTACT ++ sig)
      modify (setOwnKeySecret (.known secret))
      return secret)
      (do
        modify (setOwnKeySecret .absent)
        fail)

def ownSecret : LinkProg Bytes := do
  let l ← get
  match l.realm.contactSecret with
  | some secret => do
    turn .turn
    return secret
  | none => keySecret

/-- What an accept's msg1 may open under. -/
def acceptSecrets : LinkProg (List Bytes) := do
  let l ← get
  match l.spec.acceptSecrets with
  | .own secrets => do
    turn .turn
    return secrets
  | .node =>
    let own ← ownSecret
    let l ← get
    return own :: l.realm.extraSecrets

def probeSeen (eph : Bytes) (l : Link) : Bool := l.realm.seenProbes.contains eph

/-- The oldest is evicted at the cap. -/
def rememberProbe (eph : Bytes) (l : Link) : Link :=
  let kept :=
    if MAX_SEEN_PROBES ≤ l.realm.seenProbes.length then l.realm.seenProbes.tail
    else l.realm.seenProbes
  let seen := if kept.contains eph then kept else kept ++ [eph]
  { l with realm := { l.realm with seenProbes := seen } }

/-! ### Records -/

def wire (msg : Bytes) : LinkProg Unit := do
  let _ ← call (.wire msg)
  return ()

def ratchet (k : Option Bytes) : LinkProg Bytes := do
  let k ← need k
  hash (k ++ LABEL_REKEY)

/-- The work of `seal`: the counter is read before the wait and moves after it. -/
def sealHere (key frame : Bytes) : LinkProg Bytes := do
  let l ← get
  let ct ← call (.aeadSeal key (nonce l.sendEpoch l.sendCtr) frame)
  modify fun l => { l with sendCtr := l.sendCtr + 1 }
  let l' ← get
  if l'.spec.rekeyAfterFrames ≤ l'.sendCtr then do
    let next ← ratchet l'.sendKey
    modify fun l => { l with sendKey := some next, sendEpoch := l.sendEpoch + 1, sendCtr := 0 }
    modify fun l' => l'.mark (.sealed ⟨l.sendEpoch, l.sendCtr, some key⟩ frame ct l'.sendPos)
    return ct
  else do
    modify fun l' => l'.mark (.sealed ⟨l.sendEpoch, l.sendCtr, some key⟩ frame ct l'.sendPos)
    return ct

/-- `seal(frame)` -/
def sealFrame (frame : Bytes) : LinkProg Bytes := do
  let l ← get
  let key ← need l.sendKey
  modify fun l => l.mark (.seals l.sendPos frame l.ends)
  sealHere key frame

/-- Seal one record and put it on the wire, failing the link if that fails. -/
def wireRecord (frame : Bytes) : LinkProg Unit :=
  attempt (do
    let ct ← sealFrame frame
    wire ct)
    (modify (abort false))

/-- The loop of `becomeAuthed` over the frames queued before it. -/
def flush : List Bytes → LinkProg Unit
  | [] => return ()
  | frame :: frames => do
    wireRecord frame
    flush frames

def becomeAuthed : LinkProg Unit := do
  let l ← get
  -- A link that closed mid-step left routing and must not re-enter it.
  if l.closed then return ()
  else
    modify fun l => { l with authed := true }
    let l ← get
    if l.tierRefused .authed l.node.maxAuthed then modify (abort false)
    else
      modify (moveTier .authed l.node.maxAuthed)
      modify armIdle
      let _ ← call (.onAuth l.peerId)
      let l ← get
      -- The tie-break may have closed this link, handing its queue to the winner.
      if l.closed then return ()
      else
        modify takeQueued
        flush l.queue

/-- The receiving counter moves, and at the end of an epoch the key with it. -/
def advanceRecv : LinkProg Unit := do
  modify fun l => { l with recvCtr := l.recvCtr + 1 }
  let l ← get
  if l.spec.rekeyAfterFrames ≤ l.recvCtr then
    let next ← ratchet l.recvKey
    modify fun l => { l with recvKey := some next, recvEpoch := l.recvEpoch + 1, recvCtr := 0 }
  else return ()

def onRecord (body : Bytes) : LinkProg Unit := do
  let l ← get
  if l.recvKey = none ∨ body.length < TAG_LEN ∨ l.node.maxFrameBytes < body.length then
    modify (abort true)
  else if REJECT_AFTER_EPOCHS ≤ l.recvEpoch then modify (abort false)
  else
    let key ← need l.recvKey
    let r ← aeadDec key (nonce l.recvEpoch l.recvCtr) body
    match r with
    | none => modify (abort true)
    | some pt =>
      modify markTraffic
      -- Advance only on success.
      advanceRecv
      modify fun l' => l'.mark (.accepted ⟨l.recvEpoch, l.recvCtr, some key⟩ pt l'.recvPos)
      if pt.length = 0 then
        modify fun l => { l with peerSaidGoodbye := true }
        modify close
      else
        let l ← get
        let _ ← call (.onFrame l.peerId pt)
        return ()

/-! ### The handshake -/

/-- Every handshake key comes through here, so every one mixes in the contact secret. -/
def kdf (ikm : List (Option Bytes)) (ctx : Option Bytes) (label : Bytes) : LinkProg Bytes := do
  let parts ← need (ikm.mapM id)
  let l ← get
  let secret ← need l.contactSecret
  let ctx ← need ctx
  hash (parts.flatten ++ secret ++ ctx ++ label)

def sealZero (key plain : Bytes) : LinkProg Bytes := call (.aeadSeal key ZERO_NPUB plain)

def openZero (key ct : Bytes) : LinkProg (Option Bytes) := aeadDec key ZERO_NPUB ct

def probeContext (suiteByte ephI kemPkI : Bytes) : LinkProg Bytes := do
  let l ← get
  let root ← need l.root
  hash (root ++ suiteByte ++ ephI ++ kemPkI)

def probeKey (ctx : Bytes) : LinkProg Bytes := kdf [] (some ctx) LABEL_PROBE

/-- Sign the transcript. A refusal is a local misconfiguration, so the link aborts. -/
def signTranscript (th : Bytes) : LinkProg (Option Bytes) :=
  attempt (do
    let l ← get
    let root ← need l.root
    let sig ← call (.sign (channelIdentityMessage root th l.node.ownPk))
    return some sig)
    (do
      modify (abort false)
      return none)

def ensureEph : LinkProg Unit := do
  let l ← get
  if l.myEph.isNone then
    let pair ← boxKeypair
    modify fun l => { l with myEph := some pair }
  else return ()

/-- Only the initiator publishes an encapsulation key. -/
def ensureKem : LinkProg Unit := do
  let l ← get
  if l.spec.weDialed ∧ l.myKem.isNone then
    let seed ← call (.random 64)
    let pair ← kemKeypair seed
    modify fun l => { l with myKem := some pair }
  else return ()

def ensureKeys : LinkProg Unit := do
  ensureEph
  ensureKem

def sendMsg1 : LinkProg Unit := do
  let l ← get
  let myEph ← need l.myEph
  let myKem ← need l.myKem
  let eph := myEph.publicKey.take EPH_LEN
  let kemPk := myKem.publicKey
  let ctx ← probeContext SUITE_BYTE eph kemPk
  let key ← probeKey ctx
  let tag ← sealZero key EMPTY
  let w1 := SUITE_BYTE ++ eph ++ kemPk ++ tag
  let l ← get
  let root ← need l.root
  let th ← hash (root ++ w1)
  modify fun l => { l with th := some th }
  wire w1

/-- The first secret the probe opens under stays the link's. -/
def tryProbe (ctx tag : Bytes) : List Bytes → LinkProg Bool
  | [] => return false
  | secret :: secrets => do
    modify fun l => { l with contactSecret := some secret }
    let key ← probeKey ctx
    let r ← openZero key tag
    if r.isSome then return true
    else tryProbe ctx tag secrets

/-- `onMsg1` once its probe is proved: the asymmetric work and msg2. -/
def answerMsg1 (w1 ephI kemPkI : Bytes) : LinkProg Unit := do
  ensureKeys
  let l ← get
  let myEph ← need l.myEph
  let dh ← scalarmult myEph.privateKey ephI
  match dh with
  | none => modify stall
  | some x =>
    modify fun l => { l with ee := some x }
    let coins ← call (.random 32)
    let kem ← kemEncaps kemPkI coins
    match kem with
    | none => modify stall
    | some (ct, ss) =>
      modify fun l => { l with kemSecret := some ss, peerEph := some ephI }
      let l ← get
      let root ← need l.root
      let h1 ← hash (root ++ w1)
      let l ← get
      let myEph ← need l.myEph
      let head := myEph.publicKey.take EPH_LEN ++ ct
      let hs ← hash (h1 ++ head)
      let sig ← signTranscript hs
      match sig with
      | none => return ()
      | some sig =>
        let l ← get
        let key ← kdf [l.ee, l.kemSecret] (some hs) LABEL_M2
        let tail ← sealZero key sig
        let w2 := head ++ tail
        let th ← hash (h1 ++ w2)
        modify fun l => { l with th := some th }
        wire w2

def onMsg1 (w1 : Bytes) : LinkProg Unit := do
  if w1.length ≠ M1_LEN ∨ w1.head? ≠ some SUITE_CHANNEL_CONCEALED then modify stall
  else
    let ephI := slice w1 SUITE_LEN (SUITE_LEN + EPH_LEN)
    let kemPkI := slice w1 (SUITE_LEN + EPH_LEN) (SUITE_LEN + EPH_LEN + KEM_PK_LEN)
    let tag := w1.drop (SUITE_LEN + EPH_LEN + KEM_PK_LEN)
    let secrets ← attempt (do
      let secrets ← acceptSecrets
      return some secrets)
      (return none)
    match secrets with
    | none => modify stall
    | some secrets =>
      modify (mark (.secrets secrets))
      let ctx ← probeContext (w1.take SUITE_LEN) ephI kemPkI
      let proved ← tryProbe ctx tag secrets
      if !proved then modify stall
      else
        let l ← get
        if l.probeSeen ephI then modify stall
        else if l.tierRefused .verified l.node.maxVerified then modify stall
        else
          modify (moveTier .verified l.node.maxVerified)
          modify fun l => (l.rememberProbe ephI).mark (.probed ephI)
          modify (armDeadline l.node.handshakeTimeoutMs)
          answerMsg1 w1 ephI kemPkI

def deriveConcealedSession : LinkProg Unit := do
  let l ← get
  let i2r ← kdf [l.ee, l.kemSecret] l.th LABEL_I2R
  modify fun l =>
    if l.spec.weDialed then { l with sendKey := some i2r } else { l with recvKey := some i2r }
  let l ← get
  let r2i ← kdf [l.ee, l.kemSecret] l.th LABEL_R2I
  modify fun l =>
    if l.spec.weDialed then { l with recvKey := some r2i } else { l with sendKey := some r2i }
  modify fun l => l.mark (if l.spec.weDialed then .session l.peerId l.th i2r r2i
    else .session l.peerId l.th r2i i2r)
  modify clearEphemeral

/-- `onMsg2` once the receiver has proved the dialed key: msg3 and the session. -/
def answerMsg2 (w2 : Bytes) : LinkProg Unit := do
  let l ← get
  let th ← need l.th
  let h2 ← hash (th ++ w2)
  let sig ← signTranscript h2
  match sig with
  | none => return ()
  | some sig =>
    let l ← get
    let key ← kdf [l.ee, l.kemSecret] (some h2) LABEL_M3
    let w3 ← sealZero key (l.node.ownPk ++ sig)
    let th ← hash (h2 ++ w3)
    modify fun l => { l with th := some th }
    let derived ← attempt (do
      deriveConcealedSession
      return true)
      (do
        modify (abort false)
        return false)
    if derived then
      wire w3
      becomeAuthed

def onMsg2 (w2 : Bytes) : LinkProg Unit := do
  if w2.length ≠ M2_LEN then modify stall
  else
    let head := w2.take (EPH_LEN + KEM_CT_LEN)
    let ephR := head.take EPH_LEN
    let kemCt := head.drop EPH_LEN
    let l ← get
    let myEph ← need l.myEph
    let dh ← scalarmult myEph.privateKey ephR
    match dh with
    | none => modify stall
    | some x =>
      modify fun l => { l with ee := some x }
      let l ← get
      let myKem ← need l.myKem
      let kem ← kemDecaps myKem.privateKey kemCt
      match kem with
      | none => modify stall
      | some ss =>
        modify fun l => { l with kemSecret := some ss }
        let l ← get
        let th ← need l.th
        let hs ← hash (th ++ head)
        let l ← get
        let key ← kdf [l.ee, l.kemSecret] (some hs) LABEL_M2
        let r ← openZero key (w2.drop (EPH_LEN + KEM_CT_LEN))
        match r with
        | none => modify stall
        | some sig =>
          let l ← get
          let idR := l.spec.dialedPeerId
          if idR = l.node.ownPk then modify (abort false)
          else
            let root ← need l.root
            let good ← verify idR sig (channelIdentityMessage root hs idR)
            if !good then modify (abort true)
            else if l.spec.lint && !l.node.admits idR then modify (abort true)
            else
              modify fun l => { l with peerPubkey := some idR, peerId := idR }
              answerMsg2 w2

/-- The identity a sealed msg3 proves, or nothing. -/
def openIdentity (key ct th : Bytes) : LinkProg (Option Bytes) := do
  let r ← openZero key ct
  match r with
  | none => return none
  | some plain =>
    let id := plain.take PK_LEN
    let sig := slice plain PK_LEN (PK_LEN + SIG_LEN)
    let l ← get
    let root ← need l.root
    let good ← verify id sig (channelIdentityMessage root th id)
    if !good then return none
    -- Our own traffic reflected.
    else if id = l.node.ownPk then return none
    else return some id

def onMsg3 (w3 : Bytes) : LinkProg Unit := do
  if w3.length ≠ M3_LEN then modify stall
  else
    let l ← get
    let key ← kdf [l.ee, l.kemSecret] l.th LABEL_M3
    let l ← get
    let th ← need l.th
    let id ← openIdentity key w3 th
    match id with
    | none => modify stall
    | some idI =>
      let l ← get
      if (l.spec.lint && !l.node.admits idI) ||
          (match l.spec.acceptPeerId with | none => false | some p => idI != p) then
        modify (abort true)
      else
        modify fun l => { l with peerPubkey := some idI, peerId := idI }
        let th' ← hash (th ++ w3)
        modify fun l => { l with th := some th' }
        let derived ← attempt (do
          deriveConcealedSession
          return true)
          (do
            modify stall
            return false)
        if derived then becomeAuthed

/-! ### The work chain -/

/-- Only a dialer speaks unprompted. -/
def boot : LinkProg Unit :=
  attempt (do
    let l ← get
    let root ← rootKey l.spec.networkKey
    modify fun l => { l with root := some root }
    let l ← get
    if l.spec.weDialed then
      ensureKeys
      modify (armDeadline l.node.handshakeTimeoutMs)
      sendMsg1
    else
      modify (armDeadline l.node.unverifiedTimeoutMs))
    (modify (abort false))

/-- The handler of a message: it carries no type, this end's role and progress pick it. -/
def handle (m : Bytes) : LinkProg Unit := do
  let l ← get
  if l.authed then onRecord m
  else if l.spec.weDialed then onMsg2 m
  else if l.peerEph.isSome then onMsg3 m
  else onMsg1 m

def onMessage (m : Bytes) : LinkProg Unit := do
  let l ← get
  -- Frames queued behind a refusal are dropped here.
  if l.closed || l.stalled then return ()
  else
    modify (mark (.took m))
    attempt (handle m) (modify refuse)

/-- A record handed to the link while it was authenticated. -/
def sendRecord (frame : Bytes) : LinkProg Unit :=
  ensuring (do
    let l ← get
    if l.closed && !l.parting then return ()
    else wireRecord frame)
    fun l =>
      { l with
        outboundQueuedSlices := l.outboundQueuedSlices - 1
        outboundQueuedBytes := l.outboundQueuedBytes - frame.length }

/-- The goodbye, if it is still due: whether it was said. -/
def sayGoodbye : LinkProg Bool := do
  let l ← get
  if l.parting && l.authed && l.sendKey.isSome && decide (l.sendEpoch < REJECT_AFTER_EPOCHS) then
    attempt (do
      let ct ← sealFrame EMPTY
      wire ct
      -- A codec with its own end-of-stream signal sends it too.
      if l.spec.framerGoodbye then
        let _ ← call .framerGoodbye
        return true
      else return true)
      (pure false)
  else return false

/-- The end of a link that was closed here: its goodbye, and the teardown behind it. -/
def farewell : LinkProg Unit := do
  let saidGoodbye ← sayGoodbye
  modify teardown
  modify fun l => { l with effects := l.effects ++ [.channelClose saidGoodbye] }

def body : Job → LinkProg Unit
  | .boot => boot
  | .message m => onMessage m
  | .record frame => sendRecord frame
  | .farewell => farewell

/-- A link as its constructor leaves it; without a slot, the limiter having none, it is
closed before it starts. -/
def create (node : Node) (spec : Spec) (realm : Realm) (granted : Bool) : Link :=
  let fresh : Link :=
    { node, spec, realm, root := none, contactSecret := spec.linkSecret, peerPubkey := none,
      peerId := [], authed := false, peerSaidGoodbye := false, myEph := none, myKem := none,
      kemSecret := none, ee := none, peerEph := none, th := none, queue := [], queuedBytes := 0,
      outboundQueuedBytes := 0, outboundQueuedSlices := 0, closed := false, parting := false,
      stalled := false, closedLocally := false, aborted := false, timedOut := false, slot := none,
      due := none, lastSeen := 0, sendKey := none, recvKey := none, sendEpoch := 0, sendCtr := 0,
      recvEpoch := 0, recvCtr := 0, work := [], marks := [], effects := [], accepted := [],
      shed := 0, ends := [] }
  if spec.limited then
    if granted then enqueue .boot { fresh with slot := some ⟨.unverified, false⟩ }
    else fresh.abort false
  else enqueue .boot fresh

def next (l : Link) : Option (Job × Link) :=
  match l.work with
  | [] => none
  | j :: js => some (j, { l with work := js })

def system : System Link Call Bytes Input Job where
  ask c l := l.mark (.asked c)
  answer c a l := l.mark (.done c a)
  input := input
  next := next
  body := body

end Link

/-- A link with the step its work chain waits in. -/
abbrev LinkMachine : Type := Machine Link Call Bytes

abbrev LinkEvent : Type := Async.Event Input Bytes

namespace LinkMachine

def start (node : Node) (spec : Spec) (realm : Realm) (granted : Bool) : LinkMachine :=
  ⟨Link.create node spec realm granted, none⟩

/-- The link after a run: any order of calls from outside, starts of its steps and answers
to what they wait on, from its construction on. -/
def Reachable (m : LinkMachine) : Prop :=
  ∃ node spec realm granted evs, Spec.Loads spec ∧
    m = Link.system.run (start node spec realm granted) evs

end LinkMachine

end SeedTransport
