import SeedTransport.Services.Reads
import SeedTransport.Native.SockChannel

set_option autoImplicit false

namespace SeedTransport

/-! The native reads (`native/tcp.go`, `native/net.go`): each channel's reader lends the loop its
one buffer, and reads again when it is given the read token, which the driver's
`setReadable(true)` passes on. -/

namespace Native

open Inbound (TransportHost)

/-- The reader's buffer, `64 << 10`. -/
def chunkSize : Nat := 65536

/-- Where a channel's reader stands: `checking` has taken the token and not looked at `dead`. -/
inductive ReadLoop where
  | unstarted
  | gate
  | checking
  | reading
  | failing
  | exited
  deriving DecidableEq

/-- What of a channel concerns its reads. `listed` is an entry in the tables of `netHost` and of
`tcpChannels`, which come and go together. The last two are for an observer: what `conn.Read`
returned and what the loop copied. -/
structure Channel where
  readGate : Bool
  dead : Bool
  reader : ReadLoop
  chunk : Bytes
  listed : Bool
  reads : List Bytes
  delivered : List Bytes
  deriving DecidableEq

def Channel.new : Channel where
  readGate := true
  dead := false
  reader := .unstarted
  chunk := []
  listed := true
  reads := []
  delivered := []

/-- What the goroutines post to the loop: `deliver` lends it the reader's buffer. -/
inductive Task where
  | deliver (k length : Nat)
  | closed (k : Nat)
  deriving DecidableEq

/-- The driver on its loop, and the channels under its links. -/
structure NetHost where
  driver : TransportHost
  channel : Nat → Channel
  tasks : List Task

namespace NetHost

def new (maxRawLinks : Nat) : NetHost where
  driver := .new maxRawLinks
  channel := fun _ => .new
  tasks := []

def setChannel (n : NetHost) (k : Nat) (c : Channel) : NetHost :=
  { n with channel := Function.update n.channel k c }

def post (n : NetHost) (t : Task) : NetHost := { n with tasks := n.tasks ++ [t] }

/-- `net.resume`. -/
def resume (n : NetHost) (k : Nat) : NetHost :=
  if (n.channel k).listed then n.setChannel k { n.channel k with readGate := true } else n

/-- `terminate`, as far as it concerns reads. -/
def terminate (n : NetHost) (k : Nat) : NetHost :=
  if (n.channel k).dead then n
  else n.setChannel k { n.channel k with dead := true, readGate := true }

/-- `fail`: its `onClose` posts. -/
def fail (n : NetHost) (k : Nat) : NetHost :=
  if (n.channel k).dead then n else (n.terminate k).post (.closed k)

/-- `net.close`, and the table entry of `tcpChannels`. -/
def close (n : NetHost) (k : Nat) : NetHost :=
  if (n.channel k).listed then
    let n := n.terminate k
    n.setChannel k { n.channel k with listed := false }
  else n

/-- What the adapter does in the call on top of the driver's stack. -/
def adapter (n : NetHost) : NetHost :=
  match n.driver.stack with
  | .resuming k :: _ => n.resume k
  | .shutting k :: _ | .closing k :: _ => n.close k
  | _ => n

/-- `makeLink`, then `register`: the link's id is the channel's here. One the driver refuses is
shut. -/
def makeLink (n : NetHost) : NetHost := { n with driver := n.driver.step (.register true) }

/-- The channel was made: a link is under it. -/
def Made (n : NetHost) (k : Nat) : Prop := k < n.driver.nextLinkId

instance (n : NetHost) (k : Nat) : Decidable (n.Made k) := inferInstanceAs (Decidable (_ < _))

/-- The loop's next task. A closed channel leaves the tables first. -/
def task (n : NetHost) : NetHost :=
  match n.tasks with
  | [] => n
  | .deliver k length :: rest =>
    let c := n.channel k
    let bytes := c.chunk.take length
    let n := { n with tasks := rest }.setChannel k { c with delivered := c.delivered ++ [bytes] }
    if c.listed then { n with driver := n.driver.step (.onData k bytes) } else n
  | .closed k :: rest =>
    let c := n.channel k
    let n := { n with tasks := rest }.setChannel k { c with listed := false }
    if c.listed then { n with driver := n.driver.step (.onClose k) } else n

/-- The reader's own move. -/
def reader (n : NetHost) (k : Nat) : NetHost :=
  let c := n.channel k
  match c.reader with
  | .gate =>
    if c.readGate then n.setChannel k { c with readGate := false, reader := .checking } else n
  | .checking => n.setChannel k { c with reader := if c.dead then .exited else .reading }
  | .failing => (n.fail k).setChannel k { (n.fail k).channel k with reader := .exited }
  | .unstarted | .reading | .exited => n

/-- `conn.Read` comes back: with bytes, with none, or with an error and maybe bytes. -/
def read (n : NetHost) (k : Nat) (bytes : Bytes) (error : Bool) : NetHost :=
  let c := n.channel k
  if c.reader = .reading ∧ bytes.length ≤ chunkSize then
    let after := if error then ReadLoop.failing else .gate
    if bytes = [] then
      n.setChannel k { c with readGate := c.readGate || !error, reader := after }
    else
      (n.setChannel k { c with
        chunk := bytes ++ c.chunk.drop bytes.length
        reads := c.reads ++ [bytes]
        reader := after }).post (.deliver k bytes.length)
  else n

/-- The loop's moves are the driver's, a task, and a socket that never said a byte; a goroutine
starts a reader, reads, or sees a write fail. -/
inductive Label where
  | driver (l : TransportHost.Label)
  | makeLink
  | task
  | silent (k : Nat)
  | start (k : Nat)
  | reader (k : Nat)
  | read (k : Nat) (bytes : Bytes) (error : Bool)
  | fail (k : Nat)
  deriving DecidableEq

def step (n : NetHost) : Label → NetHost
  | .driver l =>
    match l with
    | .onData _ _ | .onClose _ | .register _ => n
    | .back a => { n.adapter with driver := n.driver.step (.back a) }
    | l => { n with driver := n.driver.step l }
  | .makeLink => n.makeLink
  | .task => if n.driver.Rest then n.task else n
  | .silent k =>
    if n.Made k ∧ n.driver.Rest ∧ (n.channel k).listed ∧ (n.channel k).delivered = [] then
      { n.close k with driver := n.driver.step (.onClose k) }
    else n
  | .start k =>
    if n.Made k ∧ (n.channel k).reader = .unstarted then
      n.setChannel k { n.channel k with reader := if (n.channel k).dead then .exited else .gate }
    else n
  | .reader k => n.reader k
  | .read k bytes error => n.read k bytes error
  | .fail k => if n.Made k then n.fail k else n

def run (n : NetHost) (labels : List Label) : NetHost := labels.foldl step n

end NetHost

end Native

end SeedTransport
