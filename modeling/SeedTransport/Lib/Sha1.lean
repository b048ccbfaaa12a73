import Mathlib

set_option autoImplicit false

/-! SHA-1 as FIPS 180-4 states it, on whole bytes, and the base64 of RFC 4648 with padding. -/

namespace Sha1

/-- The five words of a hash value, and the working variables. -/
structure Vars where
  a : BitVec 32
  b : BitVec 32
  c : BitVec 32
  d : BitVec 32
  e : BitVec 32
  deriving DecidableEq

def rotl (n : Nat) (x : BitVec 32) : BitVec 32 := (x <<< n) ||| (x >>> (32 - n))

/-- The functions of the rounds: choice, parity, majority, parity. -/
def f (t : Nat) (x y z : BitVec 32) : BitVec 32 :=
  if t < 20 then (x &&& y) ^^^ (~~~x &&& z)
  else if t < 40 then x ^^^ y ^^^ z
  else if t < 60 then (x &&& y) ^^^ (x &&& z) ^^^ (y &&& z)
  else x ^^^ y ^^^ z

def K (t : Nat) : BitVec 32 :=
  if t < 20 then 0x5a827999 else if t < 40 then 0x6ed9eba1
  else if t < 60 then 0x8f1bbcdc else 0xca62c1d6

def init : Vars := ⟨0x67452301, 0xefcdab89, 0x98badcfe, 0x10325476, 0xc3d2e1f0⟩

/-- A number as `n` bytes, the highest first. -/
def bigEndian (n v : Nat) : List UInt8 :=
  (List.range n).map fun i => UInt8.ofNat (v / 256 ^ (n - 1 - i))

/-- The message, a one bit, the fewest zeros that make the rest fit, and its length in bits. -/
def pad (msg : List UInt8) : List UInt8 :=
  msg ++ (0x80 :: List.replicate ((119 - msg.length % 64) % 64) 0) ++ bigEndian 8 (8 * msg.length)

/-- Word `t` of a block. -/
def word (block : List UInt8) (t : Nat) : BitVec 32 :=
  BitVec.ofNat 32 (((block.drop (4 * t)).take 4).foldl (fun v b => 256 * v + b.toNat) 0)

/-- The message schedule up to word `t`, the last word first. -/
def scheduled (M : Nat → BitVec 32) : Nat → List (BitVec 32)
  | 0 => []
  | t + 1 =>
    let before := scheduled M t
    (if t < 16 then M t
      else rotl 1 (before.getD 2 0 ^^^ before.getD 7 0 ^^^ before.getD 13 0 ^^^ before.getD 15 0)) ::
      before

/-- Word `t` of the message schedule. -/
def schedule (M : Nat → BitVec 32) (t : Nat) : BitVec 32 := (scheduled M (t + 1)).getD 0 0

def round (W : Nat → BitVec 32) (v : Vars) (t : Nat) : Vars :=
  ⟨rotl 5 v.a + f t v.b v.c v.d + v.e + K t + W t, v.a, rotl 30 v.b, v.c, v.d⟩

def compress (h : Vars) (block : List UInt8) : Vars :=
  let v := (List.range 80).foldl (round (schedule (word block))) h
  ⟨h.a + v.a, h.b + v.b, h.c + v.c, h.d + v.d, h.e + v.e⟩

/-- The blocks of a padded message. -/
def blocks (bytes : List UInt8) : List (List UInt8) :=
  (List.range (bytes.length / 64)).map fun j => (bytes.drop (64 * j)).take 64

def bytes (h : Vars) : List UInt8 :=
  bigEndian 4 h.a.toNat ++ bigEndian 4 h.b.toNat ++ bigEndian 4 h.c.toNat ++ bigEndian 4 h.d.toNat ++
    bigEndian 4 h.e.toNat

def digest (msg : List UInt8) : List UInt8 := bytes ((blocks (pad msg)).foldl compress init)

theorem scheduled_length (M : Nat → BitVec 32) (t : Nat) : (scheduled M t).length = t := by
  induction t with
  | zero => rfl
  | succ t ih => simp [scheduled, ih]

theorem scheduled_getD (M : Nat → BitVec 32) (t k : Nat) (h : k < t) :
    (scheduled M t).getD k 0 = schedule M (t - 1 - k) := by
  induction t generalizing k with
  | zero => omega
  | succ t ih =>
    cases k with
    | zero => rfl
    | succ k =>
      have hk := ih k (by omega)
      rw [show t + 1 - 1 - (k + 1) = t - 1 - k by omega, ← hk]
      rfl

theorem schedule_lt (M : Nat → BitVec 32) {t : Nat} (h : t < 16) : schedule M t = M t := by
  simp [schedule, scheduled, h]

theorem schedule_ge (M : Nat → BitVec 32) {t : Nat} (h : 16 ≤ t) : schedule M t =
    rotl 1 (schedule M (t - 3) ^^^ schedule M (t - 8) ^^^ schedule M (t - 14) ^^^
      schedule M (t - 16)) := by
  have hstep : schedule M t = rotl 1 ((scheduled M t).getD 2 0 ^^^ (scheduled M t).getD 7 0 ^^^
      (scheduled M t).getD 13 0 ^^^ (scheduled M t).getD 15 0) := by
    show (if t < 16 then M t else _) = _
    exact if_neg (by omega)
  rw [hstep, scheduled_getD M t 2 (by omega), scheduled_getD M t 7 (by omega),
    scheduled_getD M t 13 (by omega), scheduled_getD M t 15 (by omega)]
  simp only [Nat.sub_sub]

/-- Padding ends at a whole block. -/
theorem pad_length (msg : List UInt8) : (pad msg).length = (msg.length + 72) / 64 * 64 := by
  simp only [pad, bigEndian, List.length_append, List.length_cons, List.length_replicate,
    List.length_map, List.length_range]
  omega

example : digest [] = [0xda, 0x39, 0xa3, 0xee, 0x5e, 0x6b, 0x4b, 0x0d, 0x32, 0x55, 0xbf, 0xef, 0x95,
    0x60, 0x18, 0x90, 0xaf, 0xd8, 0x07, 0x09] := by decide +kernel

end Sha1

namespace Base64

/-- The base64 alphabet. -/
def char (v : Nat) : UInt8 :=
  if v < 26 then UInt8.ofNat (65 + v)
  else if v < 52 then UInt8.ofNat (97 + (v - 26))
  else if v < 62 then UInt8.ofNat (48 + (v - 52))
  else if v = 62 then 43 else 47

/-- Three bytes are four characters of six bits; what is short of three bytes is filled with zero
bits, and the characters it lacks are `=`. -/
def encode : List UInt8 → List UInt8
  | [] => []
  | [x] =>
    let v := x.toNat * 16
    [char (v / 64), char (v % 64), 61, 61]
  | [x, y] =>
    let v := (x.toNat * 256 + y.toNat) * 4
    [char (v / 4096), char (v / 64 % 64), char (v % 64), 61]
  | x :: y :: z :: rest =>
    let v := (x.toNat * 256 + y.toNat) * 256 + z.toNat
    char (v / 262144) :: char (v / 4096 % 64) :: char (v / 64 % 64) :: char (v % 64) :: encode rest

theorem encode_length (bs : List UInt8) : (encode bs).length = (bs.length + 2) / 3 * 4 := by
  induction bs using encode.induct with
  | case1 => rfl
  | case2 x => simp [encode]
  | case3 x y => simp [encode]
  | case4 x y z rest ih =>
    simp only [encode, List.length_cons, ih]
    omega

example : encode [102, 111, 111, 98] = [90, 109, 57, 118, 89, 103, 61, 61] := by decide

end Base64
