import SeedTransport.Host.OpArgs
import SeedTransport.Udp.Address

set_option autoImplicit false

namespace SeedTransport.Arrivals

open Address Text

/-! Datagrams on their way in: the platform's encoding (`datagrams-node.ts`), and
`Udp.onDatagrams` (`udp.js`) with its cache of the last source. -/

/-! ### The platform's side -/

/-- IPv4 as a dual-stack socket hears it. -/
def MAPPED : List Char := "::ffff:".toList

/-- `Number` of the decimal digits an OS writes, as a `Uint8Array` keeps it. -/
def numberByte (s : List Char) : UInt8 := if s.all isDigit then UInt8.ofNat (Nat.ofDigitChars 10 s 0) else 0

/-- The bytes of a source's address. -/
def ipOf (address : List Char) : Option Bytes :=
  let a := if address.take MAPPED.length = MAPPED then address.drop MAPPED.length else address
  if ':' ∈ a then ipv6Bytes a else some ((a.splitOn '.').map numberByte)

/-- `[n u8][ip n][port u16][len u16][bytes]`, as the `message` callback lays it out. -/
def encode (address : List Char) (port : Nat) (msg : Bytes) : Option Bytes :=
  (ipOf address).map fun ip => UInt8.ofNat ip.length :: (ip ++ (writeU16BE port ++ (writeU16BE msg.length ++ msg)))

/-- A datagram as a socket hears it, from an IPv4 address or an IPv6 one. -/
structure Message where
  address : List Char
  port : Nat
  msg : Bytes
  ip : Bytes
  heard : ipOf address = some ip
  family : ip.length = 4 ∨ ip.length = 16
  port_lt : port < 2 ^ 16
  msg_lt : msg.length < 2 ^ 16

def Message.wire (m : Message) : Bytes := (encode m.address m.port m.msg).getD []

/-- What one socket's `deliver` is handed, short enough for the event's blob. -/
structure Batch where
  id : UInt32
  heard : List Message
  short : (heard.flatMap Message.wire).length < 2 ^ 32

/-- Its part of a `datagrams` event. -/
def Batch.event (b : Batch) : Bytes :=
  writeU32BE b.id.toNat ++ (writeU32BE (b.heard.flatMap Message.wire).length ++ b.heard.flatMap Message.wire)

/-! ### The transport's side -/

def dotted (b : Bytes) (start : Nat) : List Char :=
  join '.' ([0, 1, 2, 3].map fun i => Nat.toDigits 10 (byteAt b (start + i)))

/-- The last source's text, and its four bytes as a number or where its sixteen stand; `none` is -1. -/
structure Cache where
  source : List Char
  ip : Option Nat
  v6 : Option Nat

def Cache.read (c : Cache) (b : Bytes) (start n : Nat) : Cache :=
  if n = 4 then
    let v := readU32BE b start
    ⟨if c.ip = some v then c.source else dotted b start, some v, none⟩
  else
    let same := match c.v6 with
      | none => false
      | some k => (List.range 16).all fun i => decide (b[k + i]? = b[start + i]?)
    ⟨if same = true then c.source else ipv6Text b start, none, some start⟩

/-- What `onPacket` is called with, after the socket. -/
structure Handed where
  bytes : Bytes
  source : List Char
  port : Nat

/-- The loop over a batch, with at most `fuel` datagrams left. -/
def packets (b : Bytes) : Nat → Nat → Cache → List Handed
  | 0, _, _ => []
  | fuel + 1, start, c =>
    if start + 5 ≤ b.length then
      let n := byteAt b start
      let c := c.read b (start + 1) n
      let past := start + 1 + n
      let len := readU16BE b (past + 2)
      ⟨subarray b (past + 4) (past + 4 + len), c.source, readU16BE b past⟩ :: packets b fuel (past + 4 + len) c
    else []

section
variable {σ ν : Type} (listeners : σ → Nat → Option ν) (onPacket : ν → Nat → Handed → σ → σ)

/-- One batch, for the negotiation that listens at its socket then. -/
def onBatch (id : Nat) (ps : List Handed) (s : σ) : σ :=
  match listeners s id with
  | none => s
  | some negotiation => ps.foldl (fun s p => onPacket negotiation id p s) s

/-- The loop over an event, with at most `fuel` batches left; the turns behind it are the streams'. -/
def datagramsLoop : Nat → Reader → σ → σ
  | 0, _, s => s
  | fuel + 1, r, s =>
    if r.more = true then
      datagramsLoop fuel r.u32.2.blob.2
        (onBatch listeners onPacket r.u32.1 (packets r.u32.2.blob.1 r.u32.2.blob.1.length 0 ⟨[], none, none⟩) s)
    else s

def onDatagrams (r : Reader) (s : σ) : σ := datagramsLoop listeners onPacket r.b.length r s

end

/-! ### Sources -/

/-- A source's text from its bytes alone. -/
def sourceText (ip : Bytes) : List Char := if ip.length = 4 then dotted ip 0 else ipv6Text ip 0

def Message.handed (m : Message) : Handed := ⟨m.msg, sourceText m.ip, m.port⟩

theorem Message.wire_eq (m : Message) :
    m.wire = UInt8.ofNat m.ip.length :: (m.ip ++ (writeU16BE m.port ++ (writeU16BE m.msg.length ++ m.msg))) := by
  rw [Message.wire, encode, m.heard]
  rfl

theorem Message.wire_length (m : Message) : m.wire.length = 5 + m.ip.length + m.msg.length := by
  simp only [m.wire_eq, List.length_cons, List.length_append, writeU16BE_length]
  omega

/-- The text of four bytes, from the number they are. -/
def dottedOf (v : Nat) : List Char :=
  join '.' ([v / 2 ^ 24, v / 2 ^ 16 % 2 ^ 8, v / 2 ^ 8 % 2 ^ 8, v % 2 ^ 8].map (Nat.toDigits 10))

theorem dotted_eq (b : Bytes) (start : Nat) : dotted b start = dottedOf (readU32BE b start) := by
  have hbyte (i : Nat) : byteAt b i < 2 ^ 8 := (b.getD i 0).toNat_lt
  have h0 := hbyte start
  have h1 := hbyte (start + 1)
  have h2 := hbyte (start + 2)
  have h3 := hbyte (start + 3)
  have e0 : readU32BE b start / 2 ^ 24 = byteAt b start := by
    unfold readU32BE
    omega
  have e1 : readU32BE b start / 2 ^ 16 % 2 ^ 8 = byteAt b (start + 1) := by
    unfold readU32BE
    omega
  have e2 : readU32BE b start / 2 ^ 8 % 2 ^ 8 = byteAt b (start + 2) := by
    unfold readU32BE
    omega
  have e3 : readU32BE b start % 2 ^ 8 = byteAt b (start + 3) := by
    unfold readU32BE
    omega
  rw [dottedOf, e0, e1, e2, e3]
  rfl

theorem ipv6Text_congr {b b' : Bytes} {start start' : Nat} (h : groupsAt b start = groupsAt b' start') :
    ipv6Text b start = ipv6Text b' start' := by
  unfold ipv6Text
  rw [h]

theorem groupsAt_congr {b b' : Bytes} {start start' : Nat}
    (h : ∀ i < 16, byteAt b (start + i) = byteAt b' (start' + i)) : groupsAt b start = groupsAt b' start' := by
  refine List.map_congr_left fun i hi => ?_
  have hi := List.mem_range.mp hi
  have h0 := h (2 * i) (by omega)
  have h1 := h (2 * i + 1) (by omega)
  rw [readU16BE, readU16BE, h0, Nat.add_assoc, Nat.add_assoc, h1]

/-- What the cache may be trusted with in a batch. -/
structure Cache.Fits (c : Cache) (b : Bytes) : Prop where
  ip : ∀ v, c.ip = some v → c.source = dottedOf v
  v6 : ∀ k, c.v6 = some k → c.source = ipv6Text b k

theorem Cache.read_source {c : Cache} {b : Bytes} (h : c.Fits b) (start n : Nat) :
    (c.read b start n).source = (if n = 4 then dotted b start else ipv6Text b start) ∧ (c.read b start n).Fits b := by
  unfold Cache.read
  by_cases hn : n = 4
  · rw [if_pos hn, if_pos hn]
    have hsource : (if c.ip = some (readU32BE b start) then c.source else dotted b start) = dotted b start := by
      split_ifs with hip
      · rw [h.ip _ hip, dotted_eq]
      · rfl
    refine ⟨hsource, fun v hv => ?_, fun _ hn => (by cases hn)⟩
    cases hv
    exact hsource.trans (dotted_eq b start)
  · rw [if_neg hn, if_neg hn]
    have hsource : (if (match c.v6 with
        | none => false
        | some k => (List.range 16).all fun i => decide (b[k + i]? = b[start + i]?)) = true
        then c.source else ipv6Text b start) = ipv6Text b start := by
      split_ifs with hsame
      · cases hk : c.v6 with
        | none =>
          rw [hk] at hsame
          cases hsame
        | some k =>
          rw [hk] at hsame
          rw [h.v6 k hk]
          refine ipv6Text_congr (groupsAt_congr fun i hi => ?_)
          have := of_decide_eq_true (List.all_eq_true.mp hsame i (List.mem_range.mpr hi))
          rw [byteAt, byteAt, List.getD_eq_getElem?_getD, List.getD_eq_getElem?_getD, this]
      · rfl
    refine ⟨hsource, fun _ hn => (by cases hn), fun k hk => ?_⟩
    cases hk
    exact hsource

/-! ### Whole batches -/

/-- What the loop finds at a message. -/
theorem wire_read (done rest : Bytes) (m : Message) :
    byteAt (done ++ (m.wire ++ rest)) done.length = m.ip.length ∧
    (if m.ip.length = 4 then dotted (done ++ (m.wire ++ rest)) (done.length + 1)
      else ipv6Text (done ++ (m.wire ++ rest)) (done.length + 1)) = sourceText m.ip ∧
    readU16BE (done ++ (m.wire ++ rest)) (done.length + 1 + m.ip.length) = m.port ∧
    readU16BE (done ++ (m.wire ++ rest)) (done.length + 1 + m.ip.length + 2) = m.msg.length ∧
    subarray (done ++ (m.wire ++ rest)) (done.length + 1 + m.ip.length + 4)
      (done.length + 1 + m.ip.length + 4 + m.msg.length) = m.msg := by
  obtain ⟨ip, hip⟩ : ∃ ip, ip = m.ip := ⟨_, rfl⟩
  have hfamily := m.family
  have hbytes : done ++ (m.wire ++ rest) = (done ++ [UInt8.ofNat m.ip.length]) ++ (m.ip ++ (writeU16BE m.port ++
      (writeU16BE m.msg.length ++ (m.msg ++ rest)))) := by
    rw [m.wire_eq]
    simp only [List.append_assoc, List.cons_append, List.nil_append]
  have hone : (done ++ [UInt8.ofNat m.ip.length]).length = done.length + 1 := by simp
  have hsource (i : Nat) (hi : i < m.ip.length) :
      byteAt (done ++ (m.wire ++ rest)) (done.length + 1 + i) = byteAt m.ip (0 + i) := by
    rw [hbytes, ← hone, byteAt_append_right, byteAt_append_left _ _ _ hi, Nat.zero_add]
  refine ⟨?_, ?_, ?_, ?_, ?_⟩
  · have h := byteAt_append_right done (m.wire ++ rest) 0
    rw [Nat.add_zero] at h
    rw [h, m.wire_eq, byteAt, List.cons_append, List.getD_cons_zero, UInt8.toNat_ofNat']
    omega
  · unfold sourceText
    split_ifs with h4
    · unfold dotted
      congr 1
      refine List.map_congr_left fun i hi => ?_
      rw [hsource i (by simp only [List.mem_cons, List.not_mem_nil, or_false] at hi; omega)]
    · exact ipv6Text_congr (groupsAt_congr fun i hi => hsource i (by omega))
  · have h := readU16BE_append ((done ++ [UInt8.ofNat m.ip.length]) ++ m.ip)
      (writeU16BE m.port ++ (writeU16BE m.msg.length ++ (m.msg ++ rest))) 0
    rw [readU16BE_write, Nat.mod_eq_of_lt m.port_lt, List.length_append, hone, List.append_assoc, ← hbytes] at h
    exact h
  · have h := readU16BE_append ((done ++ [UInt8.ofNat m.ip.length]) ++ (m.ip ++ writeU16BE m.port))
      (writeU16BE m.msg.length ++ (m.msg ++ rest)) 0
    have hsplit : done ++ (m.wire ++ rest) = ((done ++ [UInt8.ofNat m.ip.length]) ++ (m.ip ++ writeU16BE m.port)) ++
        (writeU16BE m.msg.length ++ (m.msg ++ rest)) := by
      rw [hbytes]
      simp only [List.append_assoc]
    have hlen : ((done ++ [UInt8.ofNat m.ip.length]) ++ (m.ip ++ writeU16BE m.port)).length + 0 =
        done.length + 1 + m.ip.length + 2 := by
      rw [List.length_append, hone, List.length_append, writeU16BE_length]
      omega
    rw [readU16BE_write, Nat.mod_eq_of_lt m.msg_lt, hlen, ← hsplit] at h
    exact h
  · have hsplit : done ++ (m.wire ++ rest) = ((done ++ [UInt8.ofNat m.ip.length]) ++ (m.ip ++ (writeU16BE m.port ++
        writeU16BE m.msg.length))) ++ (m.msg ++ rest) := by
      rw [hbytes]
      simp only [List.append_assoc]
    have hlen : ((done ++ [UInt8.ofNat m.ip.length]) ++ (m.ip ++ (writeU16BE m.port ++ writeU16BE m.msg.length))).length =
        done.length + 1 + m.ip.length + 4 := by
      rw [List.length_append, hone, List.length_append, List.length_append, writeU16BE_length, writeU16BE_length]
      omega
    rw [subarray, Nat.add_sub_cancel_left, hsplit, ← hlen, List.drop_left, List.take_left]

theorem packets_wire (ms : List Message) (fuel : Nat) (done : Bytes) (c : Cache)
    (hc : c.Fits (done ++ ms.flatMap Message.wire)) (hf : (ms.flatMap Message.wire).length ≤ fuel) :
    packets (done ++ ms.flatMap Message.wire) fuel done.length c = ms.map Message.handed := by
  induction ms generalizing fuel done c with
  | nil =>
    cases fuel with
    | zero => rfl
    | succ fuel => rw [List.flatMap_nil, List.append_nil, packets, if_neg (by omega), List.map_nil]
  | cons m ms ih =>
    have hlen := m.wire_length
    rw [List.flatMap_cons, List.length_append] at hf
    cases fuel with
    | zero => omega
    | succ fuel =>
      rw [List.flatMap_cons] at hc ⊢
      obtain ⟨hn, hsource, hport, hsize, hbytes⟩ := wire_read done (ms.flatMap Message.wire) m
      obtain ⟨hread, hfits⟩ := Cache.read_source hc (done.length + 1) m.ip.length
      rw [packets, if_pos (by rw [List.length_append, List.length_append]; omega)]
      simp only [hn, hport, hsize, hbytes, hread, hsource]
      have hnext : done.length + 1 + m.ip.length + 4 + m.msg.length = (done ++ m.wire).length := by
        rw [List.length_append, hlen]
        omega
      rw [hnext, ← List.append_assoc] at *
      rw [ih fuel (done ++ m.wire) _ hfits (by omega), List.map_cons]
      rfl

/-! ### Whole events -/

theorem Batch.event_length (b : Batch) : b.event.length = 8 + (b.heard.flatMap Message.wire).length := by
  simp only [Batch.event, List.length_append, writeU32BE_length]
  omega

theorem Batch.event_read (done rest : Bytes) (b : Batch) :
    (Reader.mk (done ++ (b.event ++ rest)) done.length).u32 =
      (b.id.toNat, ⟨done ++ (b.event ++ rest), done.length + 4⟩) ∧
    (Reader.mk (done ++ (b.event ++ rest)) (done.length + 4)).blob =
      (b.heard.flatMap Message.wire, ⟨done ++ (b.event ++ rest), (done ++ b.event).length⟩) := by
  constructor
  · have h := readU32BE_append done (b.event ++ rest) 0
    rw [Nat.add_zero] at h
    rw [Reader.u32, h, Batch.event, List.append_assoc, readU32BE_write, Nat.mod_eq_of_lt b.id.toNat_lt]
  · have h := Reader.blob_write (done ++ writeU32BE b.id.toNat) (b.heard.flatMap Message.wire) rest b.short
    have hbytes : done ++ (b.event ++ rest) = done ++ writeU32BE b.id.toNat ++ (writeU32BE
        (b.heard.flatMap Message.wire).length ++ b.heard.flatMap Message.wire) ++ rest := by
      simp only [Batch.event, List.append_assoc]
    have hlen : (done ++ writeU32BE b.id.toNat).length = done.length + 4 := by
      rw [List.length_append, writeU32BE_length]
    have hend : done.length + 4 + (4 + (b.heard.flatMap Message.wire).length) = (done ++ b.event).length := by
      rw [List.length_append, b.event_length]
      omega
    rw [← hbytes, hlen] at h
    rw [h, ← hend]
    simp

theorem datagramsLoop_events {σ ν : Type} (listeners : σ → Nat → Option ν) (onPacket : ν → Nat → Handed → σ → σ)
    (bs : List Batch) (fuel : Nat) (done : Bytes) (s : σ) (hf : (bs.flatMap Batch.event).length ≤ fuel) :
    datagramsLoop listeners onPacket fuel ⟨done ++ bs.flatMap Batch.event, done.length⟩ s =
      bs.foldl (fun s b => onBatch listeners onPacket b.id.toNat (b.heard.map Message.handed) s) s := by
  induction bs generalizing fuel done s with
  | nil =>
    cases fuel with
    | zero => rfl
    | succ fuel => simp [datagramsLoop, Reader.more]
  | cons b bs ih =>
    have hlen := b.event_length
    rw [List.flatMap_cons, List.length_append] at hf
    cases fuel with
    | zero => omega
    | succ fuel =>
      obtain ⟨hid, hblob⟩ := Batch.event_read done (bs.flatMap Batch.event) b
      have hmore : (Reader.mk (done ++ (b.event ++ bs.flatMap Batch.event)) done.length).more = true := by
        show decide (done.length < _) = true
        rw [List.length_append, List.length_append, decide_eq_true_eq]
        omega
      have hnone : Cache.Fits ⟨[], none, none⟩ ([] ++ b.heard.flatMap Message.wire) :=
        ⟨fun _ hn => (by cases hn), fun _ hn => (by cases hn)⟩
      have hpackets := packets_wire b.heard _ [] ⟨[], none, none⟩ hnone (Nat.le_refl _)
      rw [List.nil_append] at hpackets
      have hrest := ih fuel (done ++ b.event) (onBatch listeners onPacket b.id.toNat (b.heard.map Message.handed) s)
        (by omega)
      rw [List.append_assoc] at hrest
      rw [List.flatMap_cons, datagramsLoop, if_pos hmore, hid]
      simp only
      rw [hblob]
      simp only
      rw [show packets (b.heard.flatMap Message.wire) (b.heard.flatMap Message.wire).length 0 ⟨[], none, none⟩ =
        b.heard.map Message.handed from hpackets, hrest, List.foldl_cons]

/-! ### IPv4 -/

theorem digits_free (v : Nat) {sep : Char} (h : isDigit sep = false) : sep ∉ Nat.toDigits 10 v := fun hm => by
  have hd := Nat.isDigit_of_mem_toDigits (by decide) (by decide) hm
  simp only [Char.isDigit, Bool.and_eq_true, decide_eq_true_eq] at hd
  have hin : isDigit sep = true := decide_eq_true ⟨UInt32.le_iff_toNat_le.mp hd.1, UInt32.le_iff_toNat_le.mp hd.2⟩
  rw [h] at hin
  cases hin

theorem numberByte_digits (v : Nat) : numberByte (Nat.toDigits 10 v) = UInt8.ofNat v := by
  have hall : (Nat.toDigits 10 v).all isDigit = true := by
    rw [List.all_eq_true]
    intro c hc
    by_contra hn
    exact digits_free v (Bool.eq_false_iff.mpr hn) hc
  rw [numberByte, if_pos hall, Nat.ofDigitChars_ten_toDigits]

theorem dotted_parts (ip : Bytes) (start : Nat) :
    Parts '.' ([0, 1, 2, 3].map fun i => Nat.toDigits 10 (byteAt ip (start + i))) := fun p hp => by
  obtain ⟨i, -, rfl⟩ := List.mem_map.mp hp
  exact ⟨Nat.toDigits_ne_nil, digits_free _ (by decide)⟩

theorem dotted_free (ip : Bytes) (start : Nat) : ':' ∉ dotted ip start := fun hm => by
  rcases mem_join hm with hdot | ⟨p, hp, hc⟩
  · exact absurd hdot (by decide)
  · obtain ⟨i, -, rfl⟩ := List.mem_map.mp hp
    exact digits_free _ (by decide) hc

/-- An IPv4 source is heard as its four bytes, plain or mapped. -/
theorem ipOf_dotted {ip : Bytes} (h : ip.length = 4) :
    ipOf (dotted ip 0) = some ip ∧ ipOf (MAPPED ++ dotted ip 0) = some ip := by
  have hplain : (dotted ip 0).take MAPPED.length ≠ MAPPED := by
    intro ht
    have hc : ':' ∈ MAPPED := by decide
    rw [← ht] at hc
    exact dotted_free ip 0 (List.mem_of_mem_take hc)
  have hbytes : ((dotted ip 0).splitOn '.').map numberByte = ip := by
    rw [dotted, splitOn_join (dotted_parts ip 0) (by simp), List.map_map]
    obtain ⟨a, b, c, d, rfl⟩ : ∃ a b c d, ip = [a, b, c, d] := by
      match ip, h with
      | [a, b, c, d], _ => exact ⟨a, b, c, d, rfl⟩
    simp [numberByte_digits, byteAt]
  constructor
  · unfold ipOf
    rw [if_neg hplain]
    simp only
    rw [if_neg (dotted_free ip 0), hbytes]
  · unfold ipOf
    rw [List.take_left, if_pos rfl, List.drop_left]
    simp only
    rw [if_neg (dotted_free ip 0), hbytes]

/-- The negotiations are handed the datagrams as heard, in order, each with the text of its own
source; and an IPv6 address survives its text, as bytes and as a candidate. -/
theorem datagram_addresses :
    (∀ (σ ν : Type) (listeners : σ → Nat → Option ν) (onPacket : ν → Nat → Handed → σ → σ) (bs : List Batch) (s : σ),
      onDatagrams listeners onPacket ⟨bs.flatMap Batch.event, 0⟩ s =
        bs.foldl (fun s b => onBatch listeners onPacket b.id.toNat (b.heard.map Message.handed) s) s) ∧
    (∀ ip : Bytes, ip.length = 4 → ipOf (dotted ip 0) = some ip ∧ ipOf (MAPPED ++ dotted ip 0) = some ip) ∧
    (∀ b : Bytes, b.length = 16 →
      ipv6Bytes (ipv6Text b 0) = some b ∧ isIPv6 (ipv6Text b 0) = true ∧ Rfc5952 (groupsAt b 0) (ipv6Text b 0) ∧
      (∀ b' : Bytes, b'.length = 16 → ipv6Text b' 0 = ipv6Text b 0 → b' = b) ∧
      ∀ port, 1 ≤ port → port ≤ 65535 →
        candidateOf (endpoint (ipv6Text b 0) port) = some (addrOf (ipv6Text b 0) port)) := by
  refine ⟨fun σ ν listeners onPacket bs s => ?_, fun ip h => ipOf_dotted h, fun b h => ?_⟩
  · have h := datagramsLoop_events listeners onPacket bs _ [] s (Nat.le_refl _)
    exact h
  · have hform := ipv6Text_form b 0
    have hgs := groupsAt_groups b 0
    have hbytes := ipv6Bytes_ipv6Text h
    refine ⟨hbytes, form_isIPv6 hform hgs, hform, fun b' h' he => ?_, fun port hpos hport =>
      candidateOf_endpoint hform hgs hpos hport⟩
    have hbytes' := ipv6Bytes_ipv6Text h'
    rw [he, hbytes] at hbytes'
    exact (Option.some.inj hbytes').symm

end SeedTransport.Arrivals
