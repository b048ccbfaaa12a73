import SeedTransport.Framing.Header
import SeedTransport.Framing.Lengths
import SeedTransport.Lib.Utf

set_option autoImplicit false

namespace SeedTransport.Framing

/-! Reading a WebSocket (`framing.js`): the HTTP head, then frames, which carry whole messages, parts
of messages and control frames. -/

open Ws (SCRATCH_SIZE OP_MASK masked masking maskedHead)
open Utf (JsString js)

def MAX_WS_HANDSHAKE : Nat := 16 * 1024

def WS_OP_ACCEPT : UInt8 := 2

def WS_OP_BASE64 : UInt8 := 3

/-! ### The opening handshake -/

/-- What ends a line under the `m` flag, and what `.` does not match. -/
def isTerminator (u : UInt16) : Bool := u == 10 || u == 13 || u == 0x2028 || u == 0x2029

def isBlank (u : UInt16) : Bool := u == 32 || u == 9

/-- Letters compare without case under the `i` flag, those of ASCII. -/
def folded (s : JsString) : JsString := s.map fun u => if 65 ≤ u ∧ u ≤ 90 then u + 32 else u

/-- The value of the first line that carries the header with one; blanks around it are not part of
it. -/
def headerValue (head name : JsString) : Option JsString :=
  (head.splitOnP isTerminator).findSome? fun line =>
    if folded (line.take (name.length + 1)) = name ++ js ":" then
      let value := ((line.drop (name.length + 1)).dropWhile isBlank).reverse.dropWhile isBlank
      if value = [] then none else some value.reverse
    else none

/-- A framer's role, configuration and module. What earlier calls left in the module's memory does
not show in its answers. -/
structure Setting where
  client : Bool
  maxFrameBytes : Nat
  /-- Whether the handling of message `k` raises the cap. -/
  raises : Nat → Bool
  /-- The sixteen random bytes of a client's key. -/
  nonce : Bytes
  buffers : Ws.Buffers
  memory : Memory

namespace Setting

def wsCall (S : Setting) (req : Bytes) : Option Bytes := Ws.call S.buffers S.memory req

/-- The accept value a client expects. -/
def expectAccept (S : Setting) : Option JsString := do
  let r ← S.wsCall (WS_OP_BASE64 :: S.nonce)
  let accept ← S.wsCall (WS_OP_ACCEPT :: r)
  some (Utf.utf8Decode accept)

/-- The server's answer. -/
def switching (accept : JsString) : Bytes :=
  Utf.utf8Encode (js "HTTP/1.1 101 Switching Protocols\r\n" ++
    js "Upgrade: websocket\r\nConnection: Upgrade\r\n" ++
    js "Sec-WebSocket-Accept: " ++ accept ++ js "\r\n\r\n")

/-- `upgrade` on the head: what it puts, or a refusal. -/
def upgrade (S : Setting) (bytes : Bytes) : Option (List Bytes) :=
  let head := Utf.utf8Decode bytes
  if S.client then do
    let expect ← S.expectAccept
    if js "HTTP/1.1 101" <:+: head ∧ headerValue head (js "sec-websocket-accept") = some expect then
      some []
    else none
  else do
    let key ← headerValue head (js "sec-websocket-key")
    let accept ← S.wsCall (WS_OP_ACCEPT :: Utf.utf8Encode key)
    some [switching (Utf.utf8Decode accept)]

/-- The cap once message `k` is handled. -/
def handled (S : Setting) (k cap : Nat) : Nat := LengthFramer.handled S.maxFrameBytes S.raises k cap

end Setting

/-- The rolling scan for the end of the head: its last four bytes and its length. -/
structure Scan where
  h0 : Option UInt8
  h1 : Option UInt8
  h2 : Option UInt8
  h3 : Option UInt8
  headLen : Nat

def Scan.new : Scan := ⟨none, none, none, none, 0⟩

/-- The terminator's offset, −1 if it is not there yet, −2 past the ceiling. -/
def scanHead : Scan → Bytes → Scan × Int
  | h, [] => (h, -1)
  | h, c :: chunk =>
    let h : Scan := ⟨h.h1, h.h2, h.h3, some c, h.headLen + 1⟩
    let matched := h.h0 = some 13 ∧ h.h1 = some 10 ∧ h.h2 = some 13 ∧ h.h3 = some 10
    if matched ∨ h.headLen > MAX_WS_HANDSHAKE then
      (h, if matched ∧ h.headLen ≤ MAX_WS_HANDSHAKE then h.headLen - 4 else -2)
    else scanHead h chunk

/-! ### Frames -/

/-- What a framer does on reading. -/
inductive Event
  /-- A binary message is delivered. -/
  | message (bytes : Bytes)
  /-- A pong goes on the write chain. -/
  | pong (payload : Bytes)
  /-- The server's answer to the head is put. -/
  | answer (bytes : Bytes)
  deriving DecidableEq

/-- What the frames so far leave: the message in progress, the cap, the messages handed over, and all
that was done. -/
structure Progress where
  opened : Bool
  cap : Nat
  fragOpcode : Option Nat
  frags : List Bytes
  fragBytes : Nat
  handed : Nat
  done : List Event

def Progress.new : Progress := ⟨false, MAX_HANDSHAKE_FRAME_BYTES, none, [], 0, 0, []⟩

/-- `dispatch`. Until the cap is raised it waits for the message to be handled; after that nothing
reads what handling changes. -/
def dispatch (S : Setting) (s : Progress) (opcode : Nat) (payload : Bytes) : Progress × Bool :=
  if opcode = WS_OP_BINARY then
    ({ s with cap := S.handled s.handed s.cap, handed := s.handed + 1, done := s.done ++ [.message payload] },
      true)
  else if opcode = WS_OP_PING then ({ s with done := s.done ++ [.pong payload] }, true)
  else (s, decide (opcode ≠ WS_OP_CLOSE))

/-- The turn of `frames` once the payload is there. -/
def handleFrame (S : Setting) (s : Progress) (fin : Bool) (opcode : Nat) (payload : Bytes) : Progress × Bool :=
  if opcode = WS_OP_CONT then
    match s.fragOpcode with
    | none => (s, false)
    | some first =>
      let s := { s with fragBytes := s.fragBytes + payload.length }
      if s.fragBytes > s.cap then (s, false)
      else
        let s := { s with frags := s.frags ++ [payload] }
        if fin then
          dispatch S { s with fragOpcode := none, frags := [], fragBytes := 0 } first s.frags.flatten
        else (s, true)
  else if fin = false then
    if s.fragOpcode.isSome then (s, false)
    else ({ s with fragOpcode := some opcode, frags := [payload], fragBytes := payload.length }, true)
  else if opcode < 8 ∧ s.fragOpcode.isSome then (s, false)
  else dispatch S s opcode payload

structure WsFramer where
  parts : Queue
  scan : Scan
  progress : Progress

namespace WsFramer

def new : WsFramer := ⟨Queue.new MERGE_BELOW, Scan.new, Progress.new⟩

/-- A frame's bytes leave the buffer, and its payload, unless the module gives none. -/
def takeFrame (S : Setting) (p : Queue) (head len : Nat) : Queue × Option Bytes :=
  if S.client then
    let r := (p.take head).takeCopy len 0
    (r.1, some (r.1.heap.getD r.2 []))
  else
    let r := p.takeCopy (head + len) 1
    (r.1, (S.wsCall ((r.1.heap.getD r.2 []).set 0 WS_OP_MASK)).map fun answer => answer.drop head)

/-- The loop of `frames`. A frame has two bytes at least. -/
def frames (S : Setting) : Nat → WsFramer → WsFramer × Bool
  | 0, s => (s, true)
  | fuel + 1, s =>
    let p := s.parts
    match wsHead p.parts.bytes (p.parts.byteAt p.heap) (!S.client) s.progress.cap with
    | .null => (s, true)
    | .refused => (s, false)
    | .header fin opcode head len =>
      if p.parts.bytes < head + len then (s, true)
      else
        let r := takeFrame S p head len
        match r.2 with
        | none => ({ s with parts := r.1 }, false)
        | some payload =>
          let t := handleFrame S s.progress fin opcode payload
          if t.2 then frames S fuel { s with parts := r.1, progress := t.1 }
          else ({ s with parts := r.1, progress := t.1 }, false)

/-- `read`, on the read chain. -/
def read (S : Setting) (s : WsFramer) (chunk : Bytes) : WsFramer × Bool :=
  if s.progress.opened then
    let parts := s.parts.push chunk
    frames S (parts.parts.bytes + 1) { s with parts := parts }
  else
    let r := scanHead s.scan chunk
    let s := { s with scan := r.1 }
    if r.2 = -2 then (s, false)
    else
      let parts := s.parts.push chunk
      if r.2 < 0 then ({ s with parts := parts }, true)
      else
        let sep := r.2.toNat
        match S.upgrade (parts.parts.peek parts.heap sep) with
        | none => ({ s with parts := parts }, false)
        | some put =>
          let parts := parts.take (sep + 4)
          let done := s.progress.done ++ put.map Event.answer
          frames S (parts.parts.bytes + 1)
            { s with parts := parts, progress := { s.progress with opened := true, done := done } }

/-- One push after the other, up to one that answers false. -/
def pushes (S : Setting) : WsFramer → List Bytes → WsFramer × Bool
  | s, [] => (s, true)
  | s, c :: cs =>
    let r := read S s c
    if r.2 then pushes S r.1 cs else r

end WsFramer

end SeedTransport.Framing
