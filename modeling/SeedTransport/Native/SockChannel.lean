import Mathlib

set_option autoImplicit false

namespace SeedTransport

/-! The native byte duplex (`native/tcp.go`): one loop, one goroutine that dials and reads, one
that writes, and what each does under `mu` or on a channel as one move. -/

namespace Native

abbrev Bytes := List UInt8

/-- What `terminate` does after its section, and `send` after its own. -/
inductive Act where
  | cancelDial
  | setWriteDeadline
  | closeConn
  | signal
  | resume
  | onClose
  deriving DecidableEq

/-- A call of `terminate`, and whether it found a connection. -/
inductive End where
  | close (graceful connected : Bool)
  | fail (connected : Bool)
  deriving DecidableEq

/-- A graceful close of a connected channel leaves its queue to the writer. -/
def End.flushes : End → Bool
  | .close graceful connected => graceful && connected
  | .fail _ => false

def End.failed : End → Bool
  | .close _ _ => false
  | .fail _ => true

/-- Where the goroutine that dials and reads stands. `pending` is an accepted socket's
`readLoop`, which the loop starts; `spawning` has set `conn` and not started the writer;
`checking` holds the read token. -/
inductive Reader where
  | dialing
  | landed
  | late
  | spawning
  | pending
  | gate
  | checking
  | reading
  | resuming
  | failing
  | ending (todo : List Act)
  deriving DecidableEq

/-- Where the writer stands: `writing` has put `k` bytes of its batch on the connection, `failing`
had an error, `ending` is in its own `fail`, and `settling` is about to lock and count. -/
inductive Writer where
  | unstarted
  | checking
  | waiting
  | writing (batch : List Bytes) (k : Nat)
  | failing (batch : List Bytes) (k : Nat)
  | ending (batch : List Bytes) (k : Nat) (todo : List Act)
  | settling (batch : List Bytes) (k : Nat)
  | closing
  | exited
  deriving DecidableEq

def byteTotal (batch : List Bytes) : Nat := (batch.map List.length).sum

/-- A channel and its goroutines. `landed` and `closed` are the connection's: there is one, and
it was closed. The rest is for an observer: what `send` took, the slices of the batches the
writer is through with, what reached the connection, whether a write failed, the `terminate`
calls in order, and how often `onClose` ran. -/
structure SockChannel where
  dials : Bool
  conn : Bool
  queue : List Bytes
  queued : Int
  dead : Bool
  wake : Bool
  readGate : Bool
  loop : List Act
  reader : Reader
  writer : Writer
  landed : Bool
  closed : Bool
  accepted : List Bytes
  done : List Bytes
  wire : Bytes
  writeFailed : Bool
  ends : List End
  notified : Nat
  deriving DecidableEq

namespace SockChannel

def newDialChannel : SockChannel where
  dials := true
  conn := false
  queue := []
  queued := 0
  dead := false
  wake := false
  readGate := true
  loop := []
  reader := .dialing
  writer := .unstarted
  landed := false
  closed := false
  accepted := []
  done := []
  wire := []
  writeFailed := false
  ends := []
  notified := 0

def newInboundChannel : SockChannel :=
  { newDialChannel with
    dials := false
    conn := true
    landed := true
    reader := .pending
    writer := .checking }

/-- The section of `send`, and what it does after it. -/
def send (bytes : Bytes) (c : SockChannel) : SockChannel × List Act :=
  if c.dead then (c, [])
  else
    ({ c with
        queue := c.queue ++ [bytes]
        queued := c.queued + bytes.length
        accepted := c.accepted ++ [bytes] }, [.signal])

/-- `buffered`. -/
def buffered (c : SockChannel) : Int := c.queued

/-- The section of `terminate`, and what it does after it. -/
def terminate (flush notify : Bool) (c : SockChannel) : SockChannel × List Act :=
  let e := if notify then End.fail c.conn else .close flush c.conn
  if c.dead then ({ c with ends := c.ends ++ [e] }, [])
  else
    let drops := !flush || !c.conn
    ({ c with
        dead := true
        queue := if drops then [] else c.queue
        queued := if drops then 0 else c.queued
        ends := c.ends ++ [e] },
      (if c.dials then [.cancelDial] else []) ++
      (if c.conn then [if flush then .setWriteDeadline else .closeConn] else []) ++
      [.signal, .resume] ++ if notify then [.onClose] else [])

def close (graceful : Bool) (c : SockChannel) : SockChannel × List Act := c.terminate graceful false

def fail (c : SockChannel) : SockChannel × List Act := c.terminate false true

/-- A dial that is cancelled says so itself, and a deadline is a write that fails. -/
def act (c : SockChannel) : Act → SockChannel
  | .cancelDial | .setWriteDeadline => c
  | .closeConn => { c with closed := true }
  | .signal => { c with wake := true }
  | .resume => { c with readGate := true }
  | .onClose => { c with notified := c.notified + 1 }

/-- How `conn.Read` comes back; the bytes it read go to `onMsg`. -/
inductive Read where
  | data
  | nothing
  | error
  deriving DecidableEq

/-- The moves. A dial, a read and a write come back as they please; `wrote` is `n` more bytes of
a batch on the connection, and `written` the write's return. -/
inductive Label where
  | send (bytes : Bytes)
  | close (graceful : Bool)
  | loop
  | dialed (ok : Bool)
  | reader
  | read (how : Read)
  | writer
  | wrote (n : Nat)
  | written
  | writeError
  deriving DecidableEq

/-- The reader's own moves. -/
def readerStep (c : SockChannel) : Option SockChannel :=
  match c.reader with
  | .landed =>
    if c.dead then some { c with reader := .late }
    else some { c with conn := true, reader := .spawning }
  | .late => some { c with closed := true, reader := .ending [] }
  | .spawning => some { c with writer := .checking, reader := .gate }
  | .pending => some { c with reader := .gate }
  | .gate => if c.readGate then some { c with readGate := false, reader := .checking } else none
  | .checking => some { c with reader := if c.dead then .ending [] else .reading }
  | .resuming => some { c with readGate := true, reader := .gate }
  | .failing => some { c.fail.1 with reader := .ending c.fail.2 }
  | .ending (a :: todo) => some { c.act a with reader := .ending todo }
  | .dialing | .reading | .ending [] => none

/-- The writer's own moves: `writeLoop`, and what its `fail` does. -/
def writerStep (c : SockChannel) : Option SockChannel :=
  match c.writer with
  | .checking =>
    if c.queue = [] then some { c with writer := if c.dead then .closing else .waiting }
    else some { c with queue := [], writer := .writing c.queue 0 }
  | .waiting => if c.wake then some { c with wake := false, writer := .checking } else none
  | .failing batch k => some { c.fail.1 with writeFailed := true, writer := .ending batch k c.fail.2 }
  | .ending batch k (a :: todo) => some { c.act a with writer := .ending batch k todo }
  | .ending batch k [] => some { c with writer := .settling batch k }
  | .settling batch _ =>
    let n := byteTotal batch
    some { c with
      queued := if (n : Int) ≤ c.queued then c.queued - n else c.queued
      done := c.done ++ batch
      writer := .checking }
  | .closing => some { c with closed := true, writer := .exited }
  | .unstarted | .writing _ _ | .exited => none

def step (c : SockChannel) : Label → Option SockChannel
  | .send bytes =>
    if c.loop = [] then some { (c.send bytes).1 with loop := (c.send bytes).2 } else none
  | .close graceful =>
    if c.loop = [] then some { (c.close graceful).1 with loop := (c.close graceful).2 } else none
  | .loop =>
    match c.loop with
    | a :: todo => some { c.act a with loop := todo }
    | [] => none
  | .dialed ok =>
    match c.reader with
    | .dialing =>
      some (if ok then { c with landed := true, reader := .landed } else { c with reader := .failing })
    | _ => none
  | .reader => c.readerStep
  | .read how =>
    match c.reader with
    | .reading =>
      some { c with
        reader := match how with
          | .data => .gate
          | .nothing => .resuming
          | .error => .failing }
    | _ => none
  | .writer => c.writerStep
  | .wrote n =>
    match c.writer with
    | .writing batch k =>
      if c.closed = false ∧ 0 < n ∧ k + n ≤ byteTotal batch then
        some { c with
          wire := c.wire ++ (batch.flatten.drop k).take n
          writer := .writing batch (k + n) }
      else none
    | _ => none
  | .written =>
    match c.writer with
    | .writing batch k =>
      if k = byteTotal batch then some { c with writer := .settling batch k } else none
    | _ => none
  | .writeError =>
    match c.writer with
    | .writing batch k => some { c with writer := .failing batch k }
    | _ => none

def run (c : SockChannel) : List Label → Option SockChannel
  | [] => some c
  | l :: ls => (c.step l).bind fun c => c.run ls

end SockChannel

end Native

end SeedTransport
