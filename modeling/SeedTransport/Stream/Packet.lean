import Mathlib
import SeedTransport.Util

set_option autoImplicit false

namespace SeedTransport.Stream

/-! The packets of `stream.js` on the wire. -/

def sData : UInt8 := 0x64
def sAck : UInt8 := 0x61
def sProbe : UInt8 := 0x6d
def sClose : UInt8 := 0x78

/-- The path's header in front of every packet. -/
def pathHeader : Nat := 9
/-- A DATA packet's bytes ahead of its chunk. -/
def dataHeader : Nat := pathHeader + 18
def basePacket : Nat := 1200
def maxPacket : Nat := 1452

/-- What a packet says. The numbers are the sender's own; the wire carries them in fixed
widths (`encode`). -/
inductive Packet where
  | data (pn offset floor : Nat) (bytes : Bytes)
  | ack (credit delay : Nat) (ranges : List (Nat × Nat))
  | probe (pn : Nat)
  | close
  deriving DecidableEq, Repr

/-- A packet with `body` behind the header, its type written and the token left to the path. -/
def packet (type : UInt8) (body : Bytes) : Bytes := type :: (List.replicate 8 0 ++ body)

def writeRanges (ranges : List (Nat × Nat)) : Bytes :=
  ranges.flatMap (fun r => writeU48BE r.1 ++ writeU48BE r.2)

def encode : Packet → Bytes
  | .data pn offset floor bytes =>
    packet sData (writeU48BE pn ++ (writeU48BE offset ++ (writeU48BE floor ++ bytes)))
  | .ack credit delay ranges =>
    packet sAck (writeU48BE credit ++ (writeU16BE delay ++
      (UInt8.ofNat ranges.length :: writeRanges ranges)))
  | .probe pn => packet sProbe (writeU48BE pn ++ List.replicate (maxPacket - pathHeader - 6) 0)
  | .close => packet sClose []

/-- The path writes the receiver's token into the header (udp.js `choose`). -/
def stamp (token : Bytes) (p : Bytes) : Bytes := p.take 1 ++ token ++ p.drop pathHeader

def readRanges (p : Bytes) (count : Nat) : List (Nat × Nat) :=
  (List.range count).map (fun i =>
    (readU48BE p (pathHeader + 9 + 12 * i), readU48BE p (pathHeader + 15 + 12 * i)))

/-- What `receive` makes of the bytes of a packet; `none` is a packet it ignores. -/
def decode (p : Bytes) : Option Packet :=
  let body := p.length - pathHeader
  let type := p.head?
  if type = some sData ∧ body > 18 then
    some (.data (readU48BE p pathHeader) (readU48BE p (pathHeader + 6))
      (readU48BE p (pathHeader + 12)) (p.drop (pathHeader + 18)))
  else if type = some sAck ∧ body ≥ 9 ∧ body ≥ 9 + 12 * byteAt p (pathHeader + 8) then
    some (.ack (readU48BE p pathHeader) (readU16BE p (pathHeader + 6))
      (readRanges p (byteAt p (pathHeader + 8))))
  else if type = some sProbe ∧ body ≥ 6 then some (.probe (readU48BE p pathHeader))
  else if type = some sClose then some .close
  else none

/-- The packet as the peer reads it: every number cut to its width. -/
def Packet.cut : Packet → Packet
  | .data pn offset floor bytes =>
    .data (pn % 2 ^ 48) (offset % 2 ^ 48) (floor % 2 ^ 48) bytes
  | .ack credit delay ranges =>
    .ack (credit % 2 ^ 48) (delay % 2 ^ 16) (ranges.map (fun r => (r.1 % 2 ^ 48, r.2 % 2 ^ 48)))
  | .probe pn => .probe (pn % 2 ^ 48)
  | .close => .close

/-- The packets the stream ever builds: a chunk is not empty and the range count fits a byte. -/
def Packet.Sendable : Packet → Prop
  | .data _ _ _ bytes => bytes ≠ []
  | .ack _ _ ranges => ranges.length < 256
  | .probe _ => True
  | .close => True

theorem stamp_packet (token : Bytes) (type : UInt8) (body : Bytes) :
    stamp token (packet type body) = (type :: token) ++ body := by
  simp [stamp, packet, pathHeader]

theorem writeRanges_length (ranges : List (Nat × Nat)) :
    (writeRanges ranges).length = 12 * ranges.length := by
  induction ranges with
  | nil => rfl
  | cons r rs ih =>
    simp only [writeRanges, List.flatMap_cons, List.length_append, writeU48BE_length,
      List.length_cons] at *
    omega

theorem readRanges_write (pre : Bytes) (ranges : List (Nat × Nat)) :
    (List.range ranges.length).map (fun i =>
      (readU48BE (pre ++ writeRanges ranges) (pre.length + 12 * i),
        readU48BE (pre ++ writeRanges ranges) (pre.length + 6 + 12 * i))) =
      ranges.map (fun r => (r.1 % 2 ^ 48, r.2 % 2 ^ 48)) := by
  induction ranges generalizing pre with
  | nil => rfl
  | cons r rs ih =>
    have hsplit : pre ++ writeRanges (r :: rs) =
        (pre ++ (writeU48BE r.1 ++ writeU48BE r.2)) ++ writeRanges rs := by
      simp [writeRanges, List.append_assoc]
    have hfirst : readU48BE (pre ++ writeRanges (r :: rs)) pre.length = r.1 % 2 ^ 48 := by
      have h := readU48BE_append pre (writeU48BE r.1 ++ (writeU48BE r.2 ++ writeRanges rs)) 0
      rw [Nat.add_zero, readU48BE_write] at h
      rw [← h]
      simp [writeRanges, List.append_assoc]
    have hsecond : readU48BE (pre ++ writeRanges (r :: rs)) (pre.length + 6) = r.2 % 2 ^ 48 := by
      have h := readU48BE_append (pre ++ writeU48BE r.1) (writeU48BE r.2 ++ writeRanges rs) 0
      rw [Nat.add_zero, readU48BE_write] at h
      rw [← h]
      simp [writeRanges, List.append_assoc]
    have hrest := ih (pre ++ (writeU48BE r.1 ++ writeU48BE r.2))
    rw [List.length_cons, List.range_succ_eq_map, List.map_cons, List.map_cons, List.map_map]
    refine List.cons_eq_cons.mpr ⟨?_, ?_⟩
    · simp only [Nat.mul_zero, Nat.add_zero, hfirst, hsecond]
    · rw [← hrest]
      apply List.map_congr_left
      intro i _
      simp only [Function.comp, hsplit, List.length_append, writeU48BE_length]
      have h₁ : pre.length + 12 * (i + 1) = pre.length + (6 + 6) + 12 * i := by omega
      have h₂ : pre.length + 6 + 12 * (i + 1) = pre.length + (6 + 6) + 6 + 12 * i := by omega
      rw [h₁, h₂]

/-- Whatever token the path writes, the peer reads back the packet that was sent, its
numbers cut to the width of their fields. -/
theorem decode_stamp_encode (token : Bytes) (ht : token.length = 8) (q : Packet)
    (hq : q.Sendable) : decode (stamp token (encode q)) = some q.cut := by
  have hhead (type : UInt8) : (type :: token).length = pathHeader := by simp [ht, pathHeader]
  cases q with
  | data pn offset floor bytes =>
    have hb : 0 < bytes.length := List.length_pos_iff.mpr hq
    rw [encode, stamp_packet, decode]
    generalize hp : (sData :: token) = pre
    have hpre : pre.length = pathHeader := by rw [← hp]; exact hhead sData
    have hty : (pre ++ (writeU48BE pn ++ (writeU48BE offset ++ (writeU48BE floor ++ bytes)))).head? =
        some sData := by rw [← hp]; rfl
    have h₁ : readU48BE (pre ++ (writeU48BE pn ++ (writeU48BE offset ++ (writeU48BE floor ++ bytes))))
        pathHeader = pn % 2 ^ 48 := by
      have h := readU48BE_append pre (writeU48BE pn ++ (writeU48BE offset ++ (writeU48BE floor ++ bytes))) 0
      rw [Nat.add_zero, hpre, readU48BE_write] at h
      exact h
    have h₂ : readU48BE (pre ++ (writeU48BE pn ++ (writeU48BE offset ++ (writeU48BE floor ++ bytes))))
        (pathHeader + 6) = offset % 2 ^ 48 := by
      have h := readU48BE_append (pre ++ writeU48BE pn) (writeU48BE offset ++ (writeU48BE floor ++ bytes)) 0
      rw [Nat.add_zero, List.length_append, hpre, readU48BE_write] at h
      simpa [List.append_assoc] using h
    have h₃ : readU48BE (pre ++ (writeU48BE pn ++ (writeU48BE offset ++ (writeU48BE floor ++ bytes))))
        (pathHeader + 12) = floor % 2 ^ 48 := by
      have h := readU48BE_append (pre ++ writeU48BE pn ++ writeU48BE offset) (writeU48BE floor ++ bytes) 0
      rw [Nat.add_zero, List.length_append, List.length_append, hpre, readU48BE_write] at h
      simpa [List.append_assoc] using h
    have h₄ : (pre ++ (writeU48BE pn ++ (writeU48BE offset ++ (writeU48BE floor ++ bytes)))).drop
        (pathHeader + 18) = bytes := by
      have hl : (pre ++ (writeU48BE pn ++ (writeU48BE offset ++ writeU48BE floor))).length =
          pathHeader + 18 := by simp [hpre]
      rw [← hl]
      simp only [← List.append_assoc]
      exact List.drop_left
    have hlen : (pre ++ (writeU48BE pn ++ (writeU48BE offset ++ (writeU48BE floor ++ bytes)))).length -
        pathHeader > 18 := by
      simp only [List.length_append, writeU48BE_length, hpre]; omega
    simp only [hty, h₁, h₂, h₃, h₄, hlen, and_self, if_true, Packet.cut]
  | ack credit delay ranges =>
    have hc : ranges.length < 256 := hq
    rw [encode, stamp_packet, decode]
    generalize hp : (sAck :: token) = pre
    have hpre : pre.length = pathHeader := by rw [← hp]; exact hhead sAck
    have hty : (pre ++ (writeU48BE credit ++ (writeU16BE delay ++
        (UInt8.ofNat ranges.length :: writeRanges ranges)))).head? = some sAck := by rw [← hp]; rfl
    have hcount : byteAt (pre ++ (writeU48BE credit ++ (writeU16BE delay ++
        (UInt8.ofNat ranges.length :: writeRanges ranges)))) (pathHeader + 8) = ranges.length := by
      have h := byteAt_append_right (pre ++ (writeU48BE credit ++ writeU16BE delay))
        (UInt8.ofNat ranges.length :: writeRanges ranges) 0
      simp only [List.length_append, hpre, writeU48BE_length, writeU16BE_length, Nat.add_zero,
        List.append_assoc] at h
      rw [h]
      simp only [byteAt, List.getD_cons_zero, UInt8.toNat_ofNat']
      omega
    have h₁ : readU48BE (pre ++ (writeU48BE credit ++ (writeU16BE delay ++
        (UInt8.ofNat ranges.length :: writeRanges ranges)))) pathHeader = credit % 2 ^ 48 := by
      have h := readU48BE_append pre (writeU48BE credit ++ (writeU16BE delay ++
        (UInt8.ofNat ranges.length :: writeRanges ranges))) 0
      rw [Nat.add_zero, hpre, readU48BE_write] at h
      exact h
    have h₂ : readU16BE (pre ++ (writeU48BE credit ++ (writeU16BE delay ++
        (UInt8.ofNat ranges.length :: writeRanges ranges)))) (pathHeader + 6) = delay % 2 ^ 16 := by
      have h := readU16BE_append (pre ++ writeU48BE credit) (writeU16BE delay ++
        (UInt8.ofNat ranges.length :: writeRanges ranges)) 0
      rw [Nat.add_zero, List.length_append, hpre, readU16BE_write] at h
      simpa [List.append_assoc] using h
    have h₃ : readRanges (pre ++ (writeU48BE credit ++ (writeU16BE delay ++
        (UInt8.ofNat ranges.length :: writeRanges ranges)))) ranges.length =
        ranges.map (fun r => (r.1 % 2 ^ 48, r.2 % 2 ^ 48)) := by
      have h := readRanges_write (pre ++ (writeU48BE credit ++ (writeU16BE delay ++
        [UInt8.ofNat ranges.length]))) ranges
      simp only [List.length_append, List.length_cons, List.length_nil, hpre, writeU48BE_length,
        writeU16BE_length, List.append_assoc, List.cons_append, List.nil_append] at h
      exact h
    have hlen : (pre ++ (writeU48BE credit ++ (writeU16BE delay ++
        (UInt8.ofNat ranges.length :: writeRanges ranges)))).length - pathHeader =
        9 + 12 * ranges.length := by
      simp only [List.length_append, List.length_cons, writeU48BE_length, writeU16BE_length,
        writeRanges_length, hpre]
      omega
    have hne : sAck ≠ sData := by decide
    simp only [hty, hlen, hcount, h₁, h₂, h₃, Option.some.injEq, hne, false_and, if_false,
      Nat.le_refl, ge_iff_le, Nat.le_add_right, and_self, if_true, Packet.cut]
  | probe pn =>
    rw [encode, stamp_packet, decode]
    generalize hp : (sProbe :: token) = pre
    have hpre : pre.length = pathHeader := by rw [← hp]; exact hhead sProbe
    have hty : (pre ++ (writeU48BE pn ++ List.replicate (maxPacket - pathHeader - 6) 0)).head? =
        some sProbe := by rw [← hp]; rfl
    have h₁ : readU48BE (pre ++ (writeU48BE pn ++ List.replicate (maxPacket - pathHeader - 6) 0))
        pathHeader = pn % 2 ^ 48 := by
      have h := readU48BE_append pre (writeU48BE pn ++ List.replicate (maxPacket - pathHeader - 6) 0) 0
      rw [Nat.add_zero, hpre, readU48BE_write] at h
      exact h
    have hlen : (pre ++ (writeU48BE pn ++ List.replicate (maxPacket - pathHeader - 6) 0)).length -
        pathHeader ≥ 6 := by
      simp only [List.length_append, writeU48BE_length, hpre]; omega
    have hne : sProbe ≠ sData := by decide
    have hne' : sProbe ≠ sAck := by decide
    simp only [hty, h₁, hlen, Option.some.injEq, hne, hne', false_and, if_false, and_self,
      if_true, Packet.cut]
  | close =>
    have hne : sClose ≠ sData := by decide
    have hne' : sClose ≠ sAck := by decide
    have hne'' : sClose ≠ sProbe := by decide
    simp [encode, stamp_packet, decode, Packet.cut, hne, hne', hne'']

end SeedTransport.Stream
