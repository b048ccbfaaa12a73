import SeedTransport.Lib.Memory
import SeedTransport.Lib.Sha1
import SeedTransport.Util

set_option autoImplicit false

namespace SeedTransport.Ws

/-! The per-byte work of RFC 6455 (`assembly/ws/index.ts`), on the linear memory of its module.
Addresses and lengths are naturals: every sum of them stays inside a memory of at most 2^32
bytes. -/

def SCRATCH_SIZE : Nat := (2 <<< 20) + (1 <<< 12)

def PRIV_SIZE : Nat := 1 <<< 16

def OP_MASK : UInt8 := 1

def OP_ACCEPT : UInt8 := 2

def OP_BASE64 : UInt8 := 3

/-- The character codes of a literal. -/
def codes (s : String) : List UInt8 := s.toList.map fun c => UInt8.ofNat c.toNat

def WS_GUID : List UInt8 := codes "258EAFA5-E914-47DA-95CA-C5AB0DC85B11"

def B64 : List UInt8 := codes "ABCDEFGHIJKLMNOPQRSTUVWXYZabcdefghijklmnopqrstuvwxyz0123456789+/"

def PRIV_MSG_OFF : Nat := 0

def PRIV_DIGEST_OFF : Nat := 4096

def PRIV_WORK_OFF : Nat := 8192

/-- The two buffers the module allocates as it starts. -/
structure Buffers where
  scratch : Nat
  priv : Nat
  apart : scratch + SCRATCH_SIZE ≤ priv ∨ priv + PRIV_SIZE ≤ scratch

/-- A byte as an `i32`. -/
def load (m : Memory) (p : Nat) : BitVec 32 := (m p).toBitVec.setWidth 32

/-- The low byte of an `i32`. -/
def lowByte (v : BitVec 32) : UInt8 := UInt8.ofBitVec (v.setWidth 8)

def storeBE (m : Memory) (p : Nat) (v : BitVec 32) : Memory :=
  (((m.store p (lowByte ((v >>> 24) &&& 255))).store (p + 1) (lowByte ((v >>> 16) &&& 255))).store
    (p + 2) (lowByte ((v >>> 8) &&& 255))).store (p + 3) (lowByte (v &&& 255))

/-- `load<i32>`. -/
def loadWord (m : Memory) (p : Nat) : BitVec 32 := BitVec.ofNat 32 (m.word p 4)

/-- `store<i32>`. -/
def storeWord (m : Memory) (p : Nat) (v : BitVec 32) : Memory := m.storeWord p 4 v.toNat

def b64char (idx : BitVec 32) : UInt8 := B64.getD idx.toNat 0

/-- One turn of the loop of `base64`, at `i`. -/
def base64Group (inPtr inLen outPtr : Nat) (s : Memory × Nat) (i : Nat) : Memory × Nat :=
  let b0 := load s.1 (inPtr + i)
  let has1 := decide (i + 1 < inLen)
  let has2 := decide (i + 2 < inLen)
  let b1 := if has1 then load s.1 (inPtr + i + 1) else 0
  let b2 := if has2 then load s.1 (inPtr + i + 2) else 0
  let m := s.1.store (outPtr + s.2) (b64char (b0 >>> 2))
  let m := m.store (outPtr + (s.2 + 1)) (b64char (((b0 &&& 3) <<< 4) ||| (b1 >>> 4)))
  let m := m.store (outPtr + (s.2 + 2))
    (if has1 then b64char (((b1 &&& 15) <<< 2) ||| (b2 >>> 6)) else 61)
  let m := m.store (outPtr + (s.2 + 3)) (if has2 then b64char (b2 &&& 63) else 61)
  (m, s.2 + 4)

def base64 (m : Memory) (inPtr inLen outPtr : Nat) : Memory × Nat :=
  (List.range' 0 ((inLen + 2) / 3) 3).foldl (base64Group inPtr inLen outPtr) (m, 0)

/-- The sixteen words of the block at `off`. -/
def sha1Words (workPtr wPtr off : Nat) (m : Memory) : Memory :=
  (List.range 16).foldl (fun m i =>
    let b := workPtr + off + i * 4
    storeWord m (wPtr + i * 4)
      ((load m b <<< 24) ||| (load m (b + 1) <<< 16) ||| (load m (b + 2) <<< 8) ||| load m (b + 3))) m

/-- The other words of the schedule. -/
def sha1Schedule (wPtr : Nat) (m : Memory) : Memory :=
  (List.range' 16 64).foldl (fun m i =>
    let v := loadWord m (wPtr + (i - 3) * 4) ^^^ loadWord m (wPtr + (i - 8) * 4) ^^^
      loadWord m (wPtr + (i - 14) * 4) ^^^ loadWord m (wPtr + (i - 16) * 4)
    storeWord m (wPtr + i * 4) ((v <<< 1) ||| (v >>> 31))) m

def sha1Round (m : Memory) (wPtr : Nat) (s : Sha1.Vars) (i : Nat) : Sha1.Vars :=
  let (f, k) : BitVec 32 × BitVec 32 :=
    if i < 20 then ((s.b &&& s.c) ||| (~~~s.b &&& s.d), 0x5a827999)
    else if i < 40 then (s.b ^^^ s.c ^^^ s.d, 0x6ed9eba1)
    else if i < 60 then ((s.b &&& s.c) ||| (s.b &&& s.d) ||| (s.c &&& s.d), 0x8f1bbcdc)
    else (s.b ^^^ s.c ^^^ s.d, 0xca62c1d6)
  let tmp := ((s.a <<< 5) ||| (s.a >>> 27)) + f + s.e + k + loadWord m (wPtr + i * 4)
  { a := tmp, b := s.a, c := (s.b <<< 30) ||| (s.b >>> 2), d := s.c, e := s.d }

/-- One turn of the outer loop of `sha1`, at `off`. -/
def sha1Block (workPtr wPtr : Nat) (s : Memory × Sha1.Vars) (off : Nat) : Memory × Sha1.Vars :=
  let m := sha1Schedule wPtr (sha1Words workPtr wPtr off s.1)
  let h := s.2
  let v := (List.range 80).foldl (sha1Round m wPtr) h
  (m, { a := h.a + v.a, b := h.b + v.b, c := h.c + v.c, d := h.d + v.d, e := h.e + v.e })

/-- The length of the padded message. -/
def sha1Total (msgLen : Nat) : Nat := ((msgLen + 1 + 8 + 63) >>> 6) <<< 6

/-- The padded message at `workPtr`. -/
def sha1Pad (m : Memory) (msgPtr msgLen workPtr : Nat) : Memory :=
  let total := sha1Total msgLen
  let m := m.fill workPtr 0 total
  let m := m.copy workPtr msgPtr msgLen
  let m := m.store (workPtr + msgLen) 0x80
  let bits := BitVec.ofNat 32 msgLen * 8
  storeBE m (workPtr + total - 4) bits

def sha1 (m : Memory) (msgPtr msgLen outPtr workPtr : Nat) : Memory :=
  let total := sha1Total msgLen
  let m := sha1Pad m msgPtr msgLen workPtr
  let wPtr := workPtr + total
  let (m, h) := (List.range' 0 (total / 64) 64).foldl (sha1Block workPtr wPtr)
    (m, ⟨0x67452301, 0xefcdab89, 0x98badcfe, 0x10325476, 0xc3d2e1f0⟩)
  let m := storeBE m outPtr h.a
  let m := storeBE m (outPtr + 4) h.b
  let m := storeBE m (outPtr + 8) h.c
  let m := storeBE m (outPtr + 12) h.d
  storeBE m (outPtr + 16) h.e

/-- The key and the GUID after it, at the message of the private buffer. -/
def acceptMessage (b : Buffers) (m : Memory) (keyLen : Nat) : Memory :=
  let msg := b.priv + PRIV_MSG_OFF
  (List.range WS_GUID.length).foldl (fun m i => m.store (msg + keyLen + i) (WS_GUID.getD i 0))
    (m.copy msg (b.scratch + 1) keyLen)

def opAccept (b : Buffers) (m : Memory) (input_len : Nat) : Memory × Nat :=
  if input_len < 1 ∨ input_len - 1 + WS_GUID.length > 4096 then (m, 0)
  else
    let keyLen := input_len - 1
    let m := acceptMessage b m keyLen
    let msgLen := keyLen + WS_GUID.length
    let m := sha1 m (b.priv + PRIV_MSG_OFF) msgLen (b.priv + PRIV_DIGEST_OFF) (b.priv + PRIV_WORK_OFF)
    base64 m (b.priv + PRIV_DIGEST_OFF) 20 b.scratch

def opBase64 (b : Buffers) (m : Memory) (input_len : Nat) : Memory × Nat :=
  if input_len < 1 ∨ input_len - 1 > 4096 then (m, 0)
  else
    let n := input_len - 1
    base64 (m.copy (b.priv + PRIV_MSG_OFF) (b.scratch + 1) n) (b.priv + PRIV_MSG_OFF) n b.scratch

/-- `maskRun`: eight bytes at a time, then four, then one by one. -/
def maskRun (m : Memory) (ptr len : Nat) (m0 m1 m2 m3 : UInt8) : Memory :=
  let word := m0.toNat ||| (m1.toNat <<< 8) ||| (m2.toNat <<< 16) ||| (m3.toNat <<< 24)
  let dword := word ||| (word <<< 32)
  let eights := len / 8 * 8
  let m := (List.range' 0 (len / 8) 8).foldl
    (fun m i => m.storeWord (ptr + i) 8 (m.word (ptr + i) 8 ^^^ dword)) m
  let m := if eights + 4 ≤ len then m.storeWord (ptr + eights) 4 (m.word (ptr + eights) 4 ^^^ word)
    else m
  let i := if eights + 4 ≤ len then eights + 4 else eights
  (List.range' i (len - i)).foldl (fun m i =>
    let mb := i % 4
    let mask := if mb = 0 then m0 else if mb = 1 then m1 else if mb = 2 then m2 else m3
    m.store (ptr + i) (m (ptr + i) ^^^ mask)) m

def opMask (b : Buffers) (m : Memory) (input_len : Nat) : Memory × Nat :=
  let len := input_len - 1
  if len < 2 then (m, 0)
  else
    let len7 := (m (b.scratch + 2)).toNat % 128
    let head := (if len7 = 127 then 10 else if len7 = 126 then 4 else 2) + 4
    if len < head then (m, 0)
    else
      let m := m.copy b.scratch (b.scratch + 1) len
      let k := b.scratch + head - 4
      (maskRun m (b.scratch + head) (len - head) (m k) (m (k + 1)) (m (k + 2)) (m (k + 3)), len)

def handle (b : Buffers) (m : Memory) (input_len : Nat) : Memory × Nat :=
  if input_len < 1 then (m, 0)
  else
    let op := m b.scratch
    if op = OP_MASK then opMask b m input_len
    else if op = OP_ACCEPT then opAccept b m input_len
    else if op = OP_BASE64 then opBase64 b m input_len
    else (m, 0)

/-- One call of the module (`host/pure-module.ts`): the request goes to the scratch, the answer
is read from it; none is given for a request with no room there. -/
def call (b : Buffers) (m : Memory) (payload : Bytes) : Option Bytes :=
  if payload.length > SCRATCH_SIZE then none
  else
    let r := handle b (m.write b.scratch payload) payload.length
    if r.2 ≤ SCRATCH_SIZE then some (r.1.read b.scratch r.2) else none

end SeedTransport.Ws
