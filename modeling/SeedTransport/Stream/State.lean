import Mathlib
import SeedTransport.Lib.OrdMap
import SeedTransport.Stream.Packet

set_option autoImplicit false

namespace SeedTransport.Stream

/-! The state of a `UdpStream` and its constants. Clock readings, spans in milliseconds and
the congestion window are JavaScript doubles, taken here as exact rationals; `Infinity` is
`⊤` and `-Infinity` is `⊥`. -/

def maxProbes : Nat := 3
def initialWindow : ℚ := 10 * basePacket
def minWindow : ℚ := 2 * basePacket
def flows : ℚ := 8
def persistentPtos : ℚ := 3
def maxSuspects : Nat := 32
def initialCredit : Nat := 2 ^ 20
def maxCredit : Nat := 8 * initialCredit
def minChunk : Nat := 256
def maxRead : Nat := 256 * 1024
def maxBuffered : Nat := 16 * 1024 * 1024
def maxRanges : Nat := 32
def ackDelayMs : ℚ := 25
def initialRttMs : ℚ := 333
def keepaliveMs : ℚ := 5000
def silentMs : ℚ := 30000
def maxPtos : Nat := 6
def deadMs : ℚ := 10000
def lingerMs : ℚ := 10000

/-- A packet in flight. -/
structure Flight where
  offset : Nat
  size : Nat
  time : ℚ
  deriving DecidableEq

/-- The window a loss episode cut, to undo the cut with. -/
structure Undo where
  window : ℚ
  threshold : WithTop ℚ
  deriving DecidableEq

/-- The sending half of a stream. -/
structure Sending where
  unsent : Pieces := .empty
  /-- The stream offset past the last byte written, and past the last ever sent. -/
  written : Nat := 0
  nextOffset : Nat := 0
  /-- Chunks sent and not acked, by offset. -/
  chunks : OrdMap Nat Bytes := .empty
  /-- Chunk offsets in the order first sent, all acked before `sentHead`. -/
  sentOffsets : List Nat := []
  sentHead : Nat := 0
  /-- Offsets of chunks to send again, a set in the order they were added. -/
  lost : OrdMap Nat Unit := .empty
  /-- Packets in flight, by number, none below `oldestPn`. -/
  inFlight : OrdMap Nat Flight := .empty
  oldestPn : Nat := 0
  nextPn : Nat := 0
  largestAcked : Int := -1
  bytesInFlight : Int := 0
  window : ℚ := initialWindow
  threshold : WithTop ℚ := ⊤
  recoveryStart : WithBot ℚ := ⊥
  suspects : List Nat := []
  undo : Option Undo := none
  windowLimited : Bool := false
  peerCredit : Nat := initialCredit
  srtt : ℚ := initialRttMs
  rttvar : ℚ := initialRttMs / 2
  minRtt : WithTop ℚ := ⊤
  latestRtt : ℚ := 0
  ptoCount : Nat := 0
  lastSentData : ℚ := 0
  lossTime : WithTop ℚ := ⊤
  /-- The size a packet is on this path, and the probes for `maxPacket` not yet answered. -/
  packetBytes : Nat := basePacket
  probes : List Nat := []
  reprobe : Bool := false

/-- The receiving half of a stream. -/
structure Receiving where
  /-- The offset the reader has been handed up to, and what follows it in order. -/
  taken : Nat := 0
  held : Pieces := .empty
  /-- Chunks past a gap, by offset, and the packet bytes they came in. -/
  ahead : OrdMap Nat Bytes := .empty
  aheadBytes : Int := 0
  /-- The offset past the furthest byte received. -/
  furthest : Nat := 0
  turnDue : Bool := false
  /-- Packet numbers received, as `(largest, smallest)`, newest first. -/
  ranges : List (Nat × Nat) := []
  largestAt : ℚ := 0
  unacked : Nat := 0
  /-- How far past `taken` this end takes the stream, and when its reader began this credit. -/
  credit : Nat := initialCredit
  creditAt : WithBot ℚ := ⊥
  creditEnd : Nat := 0
  advertised : Nat := initialCredit

/-- Why a stream stopped. The source keeps no such note: each call of `fail` and `end` here
names the place it stands at. -/
inductive Cause where
  | closeHeard | drained | linger | silent | peerGone | overflow | cut
  deriving DecidableEq, Repr

/-- A `UdpStream`. The last four fields record what crossed its interface: the packets
passed to `out`, the slices handed to the reader, the slices `send` took, and why the
stream stopped. -/
structure UdpStream where
  /-- Whether the path is chosen; until then nothing is sent. -/
  out : Bool := false
  /-- Whether a link reads the stream, and whether it is still decoding the last read. -/
  read : Bool := false
  reading : Bool := false
  tx : Sending := {}
  rx : Receiving := {}
  lastSent : ℚ := 0
  lastHeard : ℚ := 0
  recoveryAt : WithTop ℚ := ⊤
  probeAt : WithTop ℚ := ⊤
  liveAt : WithTop ℚ := ⊤
  lingerAt : WithTop ℚ := ⊤
  closing : Bool := false
  gone : Bool := false
  emitted : List Packet := []
  handed : List Bytes := []
  accepted : List Bytes := []
  cause : Option Cause := none

/-- The end of what has arrived in order. -/
def Receiving.inOrder (rx : Receiving) : Nat := rx.taken + rx.held.bytes

end SeedTransport.Stream
