import Mathlib
import SeedTransport.Stream.State

set_option autoImplicit false

namespace SeedTransport.Stream

/-! The operations of `stream.js`. Each takes the clock reading `now` it runs at. The wakes
a stream asks the realm for (`wakeBy`) are left to the realm: the due times are its own. -/

/-- Whether an ACK's ranges name packet `pn`. -/
def names (ranges : List (Nat × Nat)) (pn : Nat) : Bool :=
  ranges.any (fun r => decide (pn ≤ r.1 ∧ pn ≥ r.2))

namespace Sending

def pto (tx : Sending) : ℚ := tx.srtt + max (4 * tx.rttvar) 1 + ackDelayMs

/-- When recovery is next due: the loss timer if one is set, else the probe timeout, doubled
for each in a row. -/
def recoveryDue (tx : Sending) : WithTop ℚ :=
  if tx.lossTime < ⊤ then tx.lossTime
  else ((tx.lastSentData + tx.pto * 2 ^ tx.ptoCount : ℚ) : WithTop ℚ)

def sample (tx : Sending) (latest delay : ℚ) : Sending :=
  if tx.minRtt = ⊤ then
    { tx with latestRtt := latest, minRtt := (latest : ℚ), srtt := latest, rttvar := latest / 2 }
  else
    let minRtt := min tx.minRtt (latest : WithTop ℚ)
    let adjusted := if ((latest - delay : ℚ) : WithTop ℚ) ≥ minRtt then latest - delay else latest
    { tx with
      latestRtt := latest
      minRtt := minRtt
      rttvar := 3 / 4 * tx.rttvar + 1 / 4 * |tx.srtt - adjusted|
      srtt := 7 / 8 * tx.srtt + 1 / 8 * adjusted }

/-- The first number from `pn` on that is in flight, looking at `n` of them. -/
def firstInFlight (m : OrdMap Nat Flight) : Nat → Nat → Nat
  | 0, pn => pn
  | n + 1, pn => if m.has pn then pn else firstInFlight m n (pn + 1)

def advanceOldest (tx : Sending) : Sending :=
  { tx with oldestPn := firstInFlight tx.inFlight (tx.nextPn - tx.oldestPn) tx.oldestPn }

/-- The first index from `i` on whose chunk is not acked, looking at `n` of them. -/
def firstUnacked (chunks : OrdMap Nat Bytes) (offsets : List Nat) : Nat → Nat → Nat
  | 0, i => i
  | n + 1, i =>
    if chunks.has (offsets.getD i 0) then i else firstUnacked chunks offsets n (i + 1)

/-- The offset of the oldest chunk not acked. Finding it moves `sentHead` past what is
acked, and drops the passed offsets once they are most of the list. -/
def oldestChunk (tx : Sending) : Sending × Option Nat :=
  let head := firstUnacked tx.chunks tx.sentOffsets (tx.sentOffsets.length - tx.sentHead) tx.sentHead
  let tx := { tx with sentHead := head }
  let tx := if head > 1024 ∧ head * 2 > tx.sentOffsets.length then
      { tx with sentOffsets := tx.sentOffsets.drop head, sentHead := 0 } else tx
  (tx, tx.sentOffsets[tx.sentHead]?)

/-- Written and not yet acked, which drains in send order. -/
def buffered (tx : Sending) : Sending × Nat :=
  (tx.oldestChunk.1, tx.written - tx.oldestChunk.2.getD tx.nextOffset)

/-- `splice(indexOf(offset, head) + 1, 0, rest)`. -/
def insertAfter (offsets : List Nat) (head offset rest : Nat) : List Nat :=
  let i := match (offsets.drop head).idxOf? offset with
    | some k => head + k + 1
    | none => 0
  offsets.take i ++ rest :: offsets.drop i

/-- Cut the chunk at `offset` to what a packet now carries. One cut when packets were larger
is split, and the rest becomes a chunk of its own, sent again behind what is already lost. -/
def fit (tx : Sending) (offset : Nat) (chunk : Bytes) : Sending :=
  let max := tx.packetBytes - dataHeader
  if chunk.length ≤ max then tx
  else
    let rest := offset + max
    { tx with
      chunks := (tx.chunks.set offset (chunk.take max)).set rest (chunk.drop max)
      sentOffsets := insertAfter tx.sentOffsets tx.sentHead offset rest
      lost := tx.lost.set rest () }

/-- The first lost chunk not acked meanwhile, cut to fit; every offset tried leaves `lost`. -/
def nextLost (tx : Sending) : List Nat → Sending × Option Nat
  | [] => (tx, none)
  | offset :: rest =>
    let tx := { tx with lost := tx.lost.delete offset }
    match tx.chunks.get offset with
    | some chunk => (tx.fit offset chunk, some offset)
    | none => nextLost tx rest

/-- How many new bytes go in the next packet. -/
def fresh (tx : Sending) : Nat :=
  min tx.unsent.bytes (min (tx.packetBytes - dataHeader) (tx.peerCredit - tx.nextOffset))

/-- Cut the next chunk off what is unsent. -/
def cutChunk (tx : Sending) : Sending :=
  let (chunk, unsent) := tx.unsent.take tx.fresh
  { tx with
    unsent := unsent
    chunks := tx.chunks.set tx.nextOffset chunk
    nextOffset := tx.nextOffset + tx.fresh
    sentOffsets := tx.sentOffsets ++ [tx.nextOffset] }

/-- The offset of what to send next, a lost chunk first, then new bytes the peer has room
for, and for a probe with neither, the oldest chunk not acked. -/
def nextChunk (tx : Sending) (probe : Bool) : Sending × Option Nat :=
  match tx.nextLost tx.lost.keys with
  | (tx, some offset) => (tx, some offset)
  | (tx, none) =>
    if tx.fresh > 0 then (tx.cutChunk, some tx.nextOffset)
    else if probe then
      match tx.oldestChunk with
      | (tx, some oldest) => (tx.fit oldest ((tx.chunks.get oldest).getD []), some oldest)
      | (tx, none) => (tx, none)
    else (tx, none)

/-- What an ack does for one packet it names: `newest` becomes the packet numbered `largest`. -/
def ackPacket (largest : Int) (a : Sending × Option Flight) (pn : Nat) : Sending × Option Flight :=
  let tx := a.1
  match tx.inFlight.get pn with
  | none => a
  | some s =>
    let window :=
      if (s.time : WithBot ℚ) > tx.recoveryStart ∧ tx.windowLimited then
        tx.window + (if (tx.window : WithTop ℚ) < tx.threshold then (s.size : ℚ)
          else flows * tx.packetBytes * s.size / tx.window)
      else tx.window
    ({ tx with
        inFlight := tx.inFlight.delete pn
        bytesInFlight := tx.bytesInFlight - s.size
        chunks := tx.chunks.delete s.offset
        ptoCount := 0
        window := window },
      if (pn : Int) = largest then some s else a.2)

/-- The top of a range, cut to what was sent and to below the range before. -/
def rangeTop (sent : Int) (below : Option Int) (largest : Nat) : Int :=
  match below with
  | none => min (largest : Int) sent
  | some below => min (min (largest : Int) sent) below

/-- The packets of one range still to be acked: from `oldestPn` on, below what was sent and
below the range before, whose floor is `below`. -/
def ackRange (largest : Int) (a : (Sending × Option Flight) × Option Int) (r : Nat × Nat) :
    (Sending × Option Flight) × Option Int :=
  let tx := a.1.1
  let hi := rangeTop ((tx.nextPn : Int) - 1) a.2 r.1
  let lo : Nat := max r.2 tx.oldestPn
  if (lo : Int) > hi then a
  else ((List.range' lo (hi + 1 - lo).toNat).foldl (ackPacket largest) a.1, some ((lo : Int) - 1))

/-- The run of losses a scan of the packets in flight has seen. -/
structure LossScan where
  tx : Sending
  lostSentAt : WithBot ℚ := ⊥
  runFrom : WithTop ℚ := ⊤
  persistent : Bool := false
  lost : List Nat := []

/-- Look at packet `pn`: lost, nearly lost, or not in flight. -/
def scanPacket (t delay persistence : ℚ) (a : LossScan) (pn : Nat) : LossScan :=
  match a.tx.inFlight.get pn with
  | none => { a with runFrom := ⊤ }
  | some s =>
    if a.tx.largestAcked - pn ≥ 3 ∨ s.time ≤ t - delay then
      let tx := { a.tx with
        inFlight := a.tx.inFlight.delete pn
        bytesInFlight := a.tx.bytesInFlight - s.size
        lost := if a.tx.chunks.has s.offset then a.tx.lost.set s.offset () else a.tx.lost }
      let a := { a with tx := tx, lostSentAt := max a.lostSentAt (s.time : WithBot ℚ),
                        lost := a.lost ++ [pn] }
      if (s.time : WithBot ℚ) ≤ a.tx.recoveryStart then a
      else if a.runFrom = ⊤ then { a with runFrom := (s.time : ℚ) }
      else if s.time - a.runFrom.untopD 0 > persistence then { a with persistent := true }
      else a
    else { a with tx := { a.tx with lossTime := min a.tx.lossTime ((s.time + delay : ℚ) : WithTop ℚ) } }

/-- One cut per episode, and the packets whose acks would undo it. -/
def cutWindow (t : ℚ) (a : LossScan) : Sending :=
  let tx := a.tx
  let tx :=
    if a.lostSentAt > tx.recoveryStart then
      let cut := max (tx.window * (1 - 1 / (2 * flows))) minWindow
      { tx with
        recoveryStart := (t : ℚ)
        undo := some { window := tx.window, threshold := tx.threshold }
        suspects := []
        threshold := (cut : ℚ)
        window := if a.persistent then minWindow else cut }
    else tx
  if tx.undo.isSome then
    if tx.suspects.length + a.lost.length > maxSuspects then
      { tx with undo := none, suspects := [] }
    else { tx with suspects := tx.suspects ++ a.lost }
  else tx

/-- Declare lost what an ack has passed, and set the loss timer for what it nearly has. -/
def detectLoss (tx : Sending) (t : ℚ) : Sending :=
  let tx := { tx with lossTime := ⊤ }
  let delay := max (9 / 8 * max tx.latestRtt tx.srtt) 1
  let persistence := persistentPtos * tx.pto
  let tx := tx.advanceOldest
  let pns := List.range' tx.oldestPn (tx.largestAcked - tx.oldestPn).toNat
  let scan := pns.foldl (scanPacket t delay persistence) { tx := tx }
  (cutWindow t scan).advanceOldest

/-- On another path: the window and the packet size start over. -/
def rerouted (tx : Sending) (now rttMs : ℚ) : Sending :=
  let tx := { tx with
    window := initialWindow, threshold := ⊤, recoveryStart := (now : ℚ), undo := none,
    suspects := [], minRtt := ⊤ }
  { tx.sample rttMs 0 with ptoCount := 0, packetBytes := basePacket, reprobe := false }

/-- A probe timeout. At the second in a row the path may have stopped carrying the larger
packets. -/
def timeout (tx : Sending) : Sending :=
  let tx := if tx.ptoCount ≥ 1 ∧ tx.packetBytes > basePacket then
    { tx with packetBytes := basePacket, reprobe := true } else tx
  { tx with ptoCount := tx.ptoCount + 1 }

/-- Suspects the ack names were late, not lost; once none is left the cut is undone. -/
def clearSuspects (tx : Sending) (ranges : List (Nat × Nat)) : Sending :=
  let tx := { tx with suspects := tx.suspects.filter (fun pn => !names ranges pn) }
  match tx.undo with
  | some u =>
    if tx.suspects.isEmpty then
      { tx with window := max tx.window u.window, threshold := u.threshold, undo := none }
    else tx
  | none => tx

end Sending

/-- Note a packet number as received, merging it into the ranges. -/
def recordFrom (pn : Nat) : List (Nat × Nat) → List (Nat × Nat)
  | [] => [(pn, pn)]
  | (hi, lo) :: rest =>
    if lo > pn + 1 then (hi, lo) :: recordFrom pn rest
    else if hi + 1 < pn then (pn, pn) :: (hi, lo) :: rest
    else if pn = hi + 1 then (pn, lo) :: rest
    else if pn + 1 = lo then
      match rest with
      | (hi', lo') :: rest' => if hi' + 1 = pn then (hi, lo') :: rest' else (hi, pn) :: rest
      | [] => [(hi, pn)]
    else (hi, lo) :: rest

def record (ranges : List (Nat × Nat)) (pn : Nat) : List (Nat × Nat) :=
  (recordFrom pn ranges).take maxRanges

/-- Forget the oldest ranges below `floor`, but for the newest range. -/
def dropBelow (floor : Nat) : List (Nat × Nat) → List (Nat × Nat)
  | [] => []
  | r :: rest => r :: rest.rdropWhile (fun x => decide (x.1 < floor))

namespace Receiving

/-- Move what now follows in order from `ahead` to `held`, looking `n` times. -/
def drainAhead : Nat → Receiving → Receiving
  | 0, rx => rx
  | n + 1, rx =>
    match rx.ahead.get rx.inOrder with
    | none => rx
    | some next =>
      drainAhead n { rx with
        ahead := rx.ahead.delete rx.inOrder
        aheadBytes := rx.aheadBytes - (dataHeader + next.length : Nat)
        held := rx.held.push next }

/-- Take a chunk in: held when it comes in order, with what waited on it, or kept past the
gap in front of it. -/
def store (rx : Receiving) (offset : Nat) (bytes : Bytes) : Receiving :=
  let rx := { rx with furthest := max rx.furthest (offset + bytes.length) }
  if offset = rx.inOrder then
    let rx := { rx with held := rx.held.push bytes }
    let rx := drainAhead rx.ahead.size rx
    if rx.inOrder = rx.furthest ∧ rx.ahead.size > 0 then
      { rx with ahead := .empty, aheadBytes := 0 }
    else rx
  else if offset > rx.inOrder ∧ ¬ rx.ahead.has offset then
    { rx with
      ahead := rx.ahead.set offset bytes
      aheadBytes := rx.aheadBytes + (dataHeader + bytes.length : Nat) }
  else rx

def overflows (rx : Receiving) : Bool :=
  decide (rx.aheadBytes > (2 * rx.credit : Nat)) ||
    decide (rx.held.slices + rx.ahead.size > 2 * rx.credit / minChunk)

end Receiving

namespace UdpStream

def emit (s : UdpStream) (now : ℚ) (p : Packet) : UdpStream :=
  { s with lastSent := now, emitted := s.emitted ++ [p] }

def fail (s : UdpStream) (why : Cause) : UdpStream :=
  if s.gone then s else { s with gone := true, cause := some why }

/-- Nothing acks a CLOSE, so it goes three times. -/
def sendClose (s : UdpStream) (now : ℚ) : UdpStream :=
  if s.out then ((s.emit now .close).emit now .close).emit now .close else s

def endStream (s : UdpStream) (now : ℚ) (why : Cause) : UdpStream :=
  if s.gone then s else (s.sendClose now).fail why

/-- `Math.round`, as a 16-bit field holds it: half goes up, and a negative wraps. -/
def delayField (ms : ℚ) : Nat := (min 65535 ⌊ms + 1 / 2⌋ % 65536).toNat

def sendAck (s : UdpStream) (now : ℚ) : UdpStream :=
  if ¬ s.out ∨ s.gone then s
  else
    let credit := s.rx.taken + s.rx.credit
    let more := credit > s.rx.advertised ∧ s.rx.furthest ≥ s.rx.advertised
    let p := Packet.ack credit (delayField (now - s.rx.largestAt)) s.rx.ranges
    let s := { s with rx := { s.rx with unacked := 0, advertised := credit } }
    if more then ((s.emit now p).emit now p).emit now p else s.emit now p

def arm (s : UdpStream) : UdpStream :=
  if s.gone ∨ s.tx.inFlight.size = 0 then s
  else if s.tx.recoveryDue ≥ s.recoveryAt then s
  else { s with recoveryAt := s.tx.recoveryDue }

def sendChunk (s : UdpStream) (now : ℚ) (offset : Nat) (chunk : Bytes) : UdpStream :=
  let pn := s.tx.nextPn
  let floor := match s.tx.probes with
    | [] => s.tx.oldestPn
    | probe :: _ => min s.tx.oldestPn probe
  let size := dataHeader + chunk.length
  let tx := { s.tx with
    nextPn := pn + 1
    inFlight := s.tx.inFlight.set pn { offset := offset, size := size, time := now }
    bytesInFlight := s.tx.bytesInFlight + size
    lastSentData := now }
  { s with tx := tx }.emit now (.data pn offset floor chunk)

/-- Send what the window allows, and `probes` packets past it, in at most `n` packets. -/
def flushLoop (now : ℚ) : Nat → Nat → UdpStream → UdpStream
  | 0, _, s => s
  | n + 1, probes, s =>
    if probes = 0 ∧ ((s.tx.bytesInFlight : ℚ) + s.tx.packetBytes > s.tx.window) then
      let limited := decide (s.tx.lost.size > 0) ||
        (decide (s.tx.unsent.bytes > 0) && decide (s.tx.nextOffset < s.tx.peerCredit))
      { s with tx := { s.tx with windowLimited := limited } }
    else
      match s.tx.nextChunk (decide (probes > 0)) with
      | (tx, none) => { s with tx := { tx with windowLimited := false } }
      | (tx, some offset) =>
        flushLoop now n (probes - 1)
          ({ s with tx := tx }.sendChunk now offset ((tx.chunks.get offset).getD []))

/-- The packets a flush can still send: each resends a lost chunk, splits one, takes new
bytes or spends a probe. -/
def flushBound (tx : Sending) : Nat :=
  tx.unsent.bytes + tx.lost.size + tx.chunks.sum (fun e => e.2.length - 1)

def flush (s : UdpStream) (now : ℚ) (probes : Nat) : UdpStream :=
  if ¬ s.out ∨ s.gone then s
  else (flushLoop now (flushBound s.tx + probes + 1) probes s).arm

def sendProbe (s : UdpStream) (now : ℚ) : UdpStream :=
  let s := { s with probeAt := ⊤ }
  if s.gone ∨ ¬ s.out then s
  else if s.tx.probes.length ≥ maxProbes then { s with tx := { s.tx with probes := [] } }
  else
    let pn := s.tx.nextPn
    let s := { s with tx := { s.tx with nextPn := pn + 1, probes := s.tx.probes ++ [pn] } }
    let s := s.emit now (.probe pn)
    { s with probeAt := ((now + s.tx.pto : ℚ) : WithTop ℚ) }

def startProbe (s : UdpStream) (now : ℚ) : UdpStream :=
  { s with tx := { s.tx with probes := [] } }.sendProbe now

/-- Whether an ack names a probe: then the path carries `maxPacket`. -/
def probeAcked (s : UdpStream) (ranges : List (Nat × Nat)) : UdpStream :=
  if s.tx.probes.any (names ranges) then
    { s with probeAt := ⊤, tx := { s.tx with probes := [], packetBytes := maxPacket } }
  else s

/-- One read, if the reader has decoded the last. The source's loop ends after one: `reading`
is set. -/
def handOver (s : UdpStream) : UdpStream :=
  if ¬ s.reading ∧ s.read ∧ s.rx.held.bytes > 0 ∧ ¬ s.gone then
    let n := min s.rx.held.bytes maxRead
    { s with
      rx := { s.rx with held := (s.rx.held.take n).2, taken := s.rx.taken + (s.rx.held.take n).1.length }
      reading := true
      handed := s.handed ++ [(s.rx.held.take n).1] }
  else s

/-- A credit read in under two round trips held the sender back. -/
def grant (s : UdpStream) (now : ℚ) : UdpStream :=
  if s.rx.taken ≥ s.rx.creditEnd then
    let credit := if ((now - 2 * s.tx.srtt : ℚ) : WithBot ℚ) < s.rx.creditAt then
      min (2 * s.rx.credit) maxCredit else s.rx.credit
    { s with rx := { s.rx with
      credit := credit, creditAt := (now : ℚ), creditEnd := s.rx.taken + credit } }
  else s

/-- Hand the reader what is in order, once it has decoded the last, and tell the sender once
that has freed half the credit. -/
def deliver (s : UdpStream) (now : ℚ) : UdpStream :=
  let s := s.handOver.grant now
  if 2 * ((s.rx.taken + s.rx.credit : Int) - s.rx.advertised) ≥ s.rx.credit then s.sendAck now
  else s

/-- The link that reads the stream. -/
def reader (s : UdpStream) (now : ℚ) : UdpStream := { s with read := true }.deliver now

/-- The reader has decoded the last read. -/
def readDone (s : UdpStream) (now : ℚ) : UdpStream := { s with reading := false }.deliver now

/-- The end of the datagrams event that brought packets: one read and one ack for all. -/
def turn (s : UdpStream) (now : ℚ) : UdpStream :=
  let s := { s with rx := { s.rx with turnDue := false } }.deliver now
  if s.rx.unacked > 0 then s.sendAck now else s

/-- The largest packet number received, `-1` before any. -/
def largestIn : List (Nat × Nat) → Int
  | [] => -1
  | r :: _ => r.1

/-- `udp.turns.push(this)`, once. -/
def queueTurn (s : UdpStream) : UdpStream := { s with rx := { s.rx with turnDue := true } }

/-- Note `pn` as received, and see it acked: at once if it is out of order, a gap or a repeat. -/
def received (s : UdpStream) (now : ℚ) (pn : Nat) : UdpStream :=
  let largest := largestIn s.rx.ranges
  let s := { s with rx := { s.rx with
    ranges := record s.rx.ranges pn
    largestAt := if (pn : Int) > largest then s.lastHeard else s.rx.largestAt } }
  queueTurn (if (pn : Int) ≠ largest + 1 then s.sendAck now
    else { s with rx := { s.rx with unacked := s.rx.unacked + 1 } })

def onChunk (s : UdpStream) (now : ℚ) (pn offset floor : Nat) (bytes : Bytes) : UdpStream :=
  if offset + bytes.length > s.rx.taken + s.rx.credit then s
  else
    let s := s.received now pn
    let rx := { s.rx with ranges := dropBelow floor s.rx.ranges }.store offset bytes
    let s := { s with rx := rx }
    if s.rx.overflows then s.fail .overflow else s

/-- Take the packets an ack names out of flight; the second answer is the one numbered
`largest`. -/
def ackNamed (tx : Sending) (largest : Int) (ranges : List (Nat × Nat)) :
    Sending × Option Flight :=
  (ranges.foldl (Sending.ackRange largest) ((tx, none), none)).1

/-- What an ack says of the packets it names, once it names any. -/
def onRanges (s : UdpStream) (now : ℚ) (delay : Nat) (first : Nat × Nat)
    (ranges : List (Nat × Nat)) : UdpStream :=
  let largest : Int := min (first.1 : Int) ((s.tx.nextPn : Int) - 1)
  let newest := (ackNamed s.tx largest ranges).2
  let s := { s with tx := (ackNamed s.tx largest ranges).1 }
  let s := if s.tx.probes.length > 0 then s.probeAcked ranges else s
  let tx := s.tx.clearSuspects ranges
  let tx := { tx with largestAcked := max tx.largestAcked largest }.advanceOldest
  let tx := match newest with
    | some f => tx.sample (now - f.time) delay
    | none => tx
  let s := { s with tx := tx.detectLoss now }
  if s.tx.reprobe ∧ s.tx.ptoCount = 0 then
    { s with tx := { s.tx with reprobe := false } }.startProbe now
  else s

/-- The end of `onAck`: a close that waited for the last ack, or what may now be sent. -/
def afterAck (s : UdpStream) (now : ℚ) : UdpStream :=
  if s.closing then
    let left := s.tx.buffered.2
    let s := { s with tx := s.tx.buffered.1 }
    if left = 0 then s.endStream now .drained else s.flush now 0
  else s.flush now 0

/-- What the ack says of credit. -/
def credited (s : UdpStream) (credit : Nat) : UdpStream :=
  { s with tx := { s.tx with peerCredit := max s.tx.peerCredit credit } }

def onAck (s : UdpStream) (now : ℚ) (credit delay : Nat) (ranges : List (Nat × Nat)) : UdpStream :=
  match ranges with
  | [] => (s.credited credit).afterAck now
  | first :: _ => ((s.credited credit).onRanges now delay first ranges).afterAck now

/-- The path is chosen: start sending. -/
def start (s : UdpStream) (now : ℚ) : UdpStream :=
  if s.gone ∨ s.out then s
  else
    let s := { s with out := true, lastHeard := now, lastSent := now,
                      liveAt := ((now + keepaliveMs : ℚ) : WithTop ℚ) }
    let s := if s.rx.ranges.length > 0 then s.sendAck now else s
    let s := s.flush now 0
    { s with tx := { s.tx with reprobe := true } }

/-- The path moved to another address, `rttMs` away. -/
def repath (s : UdpStream) (now rttMs : ℚ) : UdpStream :=
  if s.gone then s
  else
    ((({ s with tx := s.tx.rerouted now rttMs }).sendAck now).flush now 0).startProbe now

/-- One packet from the peer, header included. -/
def receive (s : UdpStream) (now : ℚ) (p : Bytes) : UdpStream :=
  if s.gone then s
  else
    let s := { s with lastHeard := now }
    match decode p with
    | some (.data pn offset floor bytes) => s.onChunk now pn offset floor bytes
    | some (.ack credit delay ranges) => s.onAck now credit delay ranges
    | some (.probe pn) => s.received now pn
    | some .close => s.fail .closeHeard
    | none => s

/-- The second answer is false for the error `send` throws. Its length check has then still
moved `sentHead`. -/
def send (s : UdpStream) (now : ℚ) (bytes : Bytes) : UdpStream × Bool :=
  if s.gone ∨ s.closing then (s, false)
  else
    let left := s.tx.buffered.2
    let s := { s with tx := s.tx.buffered.1 }
    if left + bytes.length > maxBuffered then (s, false)
    else if bytes.length = 0 then (s, true)
    else
      let s := { s with
        accepted := s.accepted ++ [bytes]
        tx := { s.tx with unsent := s.tx.unsent.push bytes, written := s.tx.written + bytes.length } }
      (s.flush now 0, true)

/-- A graceful close waits for what was written to be acked, up to `lingerMs`. -/
def close (s : UdpStream) (now : ℚ) (graceful : Bool) : UdpStream :=
  if s.gone ∨ s.closing then s
  else if graceful ∧ s.out then
    let left := s.tx.buffered.2
    let s := { s with tx := s.tx.buffered.1 }
    if left > 0 then
      { s with closing := true, lingerAt := ((now + lingerMs : ℚ) : WithTop ℚ) }
    else s.endStream now .drained
  else s.endStream now .cut

/-- Data in flight through `maxPtos` probe timeouts, from a peer silent for `deadMs`. -/
def peerGone (s : UdpStream) (t : ℚ) : Bool :=
  decide (s.tx.inFlight.size > 0) && decide (s.tx.ptoCount ≥ maxPtos) &&
    decide (t - s.lastHeard > deadMs)

/-- Every `keepaliveMs`. -/
def tick (s : UdpStream) (now t : ℚ) : UdpStream :=
  if t - s.lastHeard > silentMs then s.fail .silent
  else if s.peerGone t then s.endStream now .peerGone
  else
    let s := if t - s.lastSent ≥ keepaliveMs then s.sendAck now else s
    { s with liveAt := ((now + keepaliveMs : ℚ) : WithTop ℚ) }

def onRecovery (s : UdpStream) (now t : ℚ) : UdpStream :=
  let s := { s with recoveryAt := ⊤ }
  if s.tx.inFlight.size = 0 then s
  else if (t : WithTop ℚ) < s.tx.recoveryDue then s.arm
  else if s.tx.lossTime < ⊤ then { s with tx := s.tx.detectLoss t }.flush now 0
  else if s.peerGone t then s.endStream now .peerGone
  else { s with tx := s.tx.timeout }.flush now 2

/-- One wake at `t`: what is due. -/
def onWake (s : UdpStream) (now t : ℚ) : UdpStream :=
  if s.gone then s
  else if (t : WithTop ℚ) ≥ s.lingerAt then s.endStream now .linger
  else
    let s := if (t : WithTop ℚ) ≥ s.liveAt then s.tick now t else s
    let s := if ¬ s.gone ∧ (t : WithTop ℚ) ≥ s.recoveryAt then s.onRecovery now t else s
    if ¬ s.gone ∧ (t : WithTop ℚ) ≥ s.probeAt then s.sendProbe now else s

end UdpStream

end SeedTransport.Stream
