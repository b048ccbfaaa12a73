import SeedTransport.Host.Utf8

set_option autoImplicit false

namespace SeedTransport.SendBatch

open Utf (JsString)

/-! A turn's datagrams on their way out: the batches the transport gathers (`udp.js`), the
host's filter of them (`services/link.ts`), and the platform's reader (`datagrams.ts`). -/

/-! ### The transport's side -/

/-- What one `link/udpSend` carries at most. -/
def SEND_BATCH : Nat := 256 * 1024

/-- One call of `sendto`, to a host that `addrOf` made an address of. -/
structure Send where
  id : UInt32
  host : JsString
  port : Nat
  bytes : Bytes

/-- The address's `b`. -/
def Send.b (s : Send) : Bytes := Utf8.utf8Encode s.host

/-- `[socket u32][hostLen u8][host utf8][port u16][len u16][bytes]`, as `sendto` writes it. -/
def Send.record (s : Send) : Bytes :=
  writeU32BE s.id.toNat ++ (UInt8.ofNat s.b.length :: (s.b ++
    (writeU16BE s.port ++ (writeU16BE s.bytes.length ++ s.bytes))))

/-- The buffer of a turn, and the batches handed to `link/udpSend`. -/
structure Udp where
  out : Bytes
  outLen : Nat
  flushDue : Bool
  sent : List Bytes

def Udp.init : Udp := ⟨List.replicate SEND_BATCH 0, 0, false, []⟩

/-- Stores that end in an `out.set`, which throws when they do not fit. -/
def setAt (out : Bytes) (start : Nat) (b : Bytes) : Option Bytes :=
  if start + b.length ≤ out.length then some (out.take start ++ b ++ out.drop (start + b.length)) else none

def Udp.flush (u : Udp) : Udp :=
  if u.outLen = 0 then u else { u with outLen := 0, sent := u.sent ++ [u.out.take u.outLen] }

/-- `none` is the `RangeError` of a datagram larger than the buffer. -/
def Udp.sendto (u : Udp) (s : Send) : Option Udp :=
  let need := 9 + s.b.length + s.bytes.length
  let u := if u.outLen + need > u.out.length then u.flush else u
  (setAt u.out u.outLen s.record).map fun out =>
    { u with out := out, outLen := u.outLen + need, flushDue := true }

inductive Op where
  | sendto (s : Send)
  | flush
  /-- The microtask that `sendto` asks for. -/
  | flushNow

def Udp.step (u : Udp) : Op → Option Udp
  | .sendto s => u.sendto s
  | .flush => some u.flush
  | .flushNow => some { u with flushDue := false }.flush

def Udp.run (u : Udp) : List Op → Option Udp
  | [] => some u
  | op :: ops => (u.step op).bind fun u => u.run ops

/-- The datagrams that a run sends, in order. -/
def sends (ops : List Op) : List Send :=
  ops.filterMap fun
    | .sendto s => some s
    | _ => none

/-! ### The host's side -/

/-- Where the datagram at `start` ends, `none` for `Infinity`. -/
def datagramEnd (batch : Bytes) (start : Nat) : Option Nat :=
  let p := start + 5 + byteAt batch (start + 4)
  if p + 4 > batch.length then none else some (p + 4 + readU16BE batch (p + 2))

/-- The filter's loop, with at most `fuel` datagrams left: what is `kept` so far, nothing set aside
until the first that is left out. `none` is the error thrown. -/
def filterLoop (held : Nat → Bool) (batch : Bytes) : Nat → Nat → Option (List Bytes) → Option Bytes
  | 0, _, _ => none
  | fuel + 1, start, kept =>
    if start < batch.length then
      match datagramEnd batch start with
      | none => none
      | some stop =>
        if stop > batch.length then none
        else if held (readU32BE batch start) then
          filterLoop held batch fuel stop (kept.map fun ks => ks ++ [(batch.take stop).drop start])
        else filterLoop held batch fuel stop (some (kept.getD [batch.take start]))
    else some ((kept.map List.flatten).getD batch)

/-- `link/udpSend` from an occupant that holds the sockets `held`, as far as the platform's `send`. -/
def udpSend (held : Nat → Bool) (batch : Bytes) : Option Bytes :=
  filterLoop held batch (batch.length + 1) 0 none

/-- A datagram as the platform reads it. -/
structure Heard where
  id : Nat
  host : JsString
  port : Nat
  bytes : Bytes
  deriving DecidableEq

/-- The loop, with at most `fuel` datagrams left. The host has checked its bounds. -/
def forEachDatagram (batch : Bytes) : Nat → Nat → List Heard
  | 0, _ => []
  | fuel + 1, start =>
    if start < batch.length then
      let p := start + 5 + byteAt batch (start + 4)
      let stop := (datagramEnd batch start).getD batch.length
      ⟨readU32BE batch start, Utf.textDecode ((batch.take p).drop (start + 5)), readU16BE batch p,
        (batch.take stop).drop (p + 4)⟩ :: forEachDatagram batch fuel stop
    else []

/-- What the platform sends of the batches: `none` if the host threw at one. -/
def delivered (held : Nat → Bool) (batches : List Bytes) : Option (List Heard) :=
  (batches.mapM (udpSend held)).map fun kept => kept.flatMap fun b => forEachDatagram b b.length 0

/-! ### Records -/

/-- A datagram as its record in a batch says it. -/
structure Datagram where
  id : Nat
  host : Bytes
  port : Nat
  bytes : Bytes
  id_lt : id < 2 ^ 32
  host_lt : host.length < 2 ^ 8
  port_lt : port < 2 ^ 16
  bytes_lt : bytes.length < 2 ^ 16

def Datagram.wire (d : Datagram) : Bytes :=
  writeU32BE d.id ++ (UInt8.ofNat d.host.length :: (d.host ++
    (writeU16BE d.port ++ (writeU16BE d.bytes.length ++ d.bytes))))

def Datagram.heard (d : Datagram) : Heard := ⟨d.id, Utf.textDecode d.host, d.port, d.bytes⟩

theorem Datagram.wire_length (d : Datagram) : d.wire.length = 9 + d.host.length + d.bytes.length := by
  simp only [wire, List.length_append, List.length_cons, writeU32BE_length, writeU16BE_length]
  omega

/-- What the readers find at a record. -/
theorem wire_read (done rest : Bytes) (d : Datagram) :
    readU32BE (done ++ (d.wire ++ rest)) done.length = d.id ∧
    byteAt (done ++ (d.wire ++ rest)) (done.length + 4) = d.host.length ∧
    readU16BE (done ++ (d.wire ++ rest)) (done.length + 5 + d.host.length) = d.port ∧
    readU16BE (done ++ (d.wire ++ rest)) (done.length + 5 + d.host.length + 2) = d.bytes.length := by
  have hhost := d.host_lt
  refine ⟨?_, ?_, ?_, ?_⟩
  · have h := readU32BE_append done (d.wire ++ rest) 0
    rw [Nat.add_zero] at h
    rw [h, Datagram.wire, List.append_assoc, readU32BE_write, Nat.mod_eq_of_lt d.id_lt]
  · rw [byteAt_append_right]
    simp only [Datagram.wire, writeU32BE, byteAt, List.cons_append, List.nil_append, List.getD_cons_succ,
      List.getD_cons_zero, UInt8.toNat_ofNat']
    omega
  · have h := readU16BE_append (done ++ (writeU32BE d.id ++ (UInt8.ofNat d.host.length :: d.host)))
      (writeU16BE d.port ++ (writeU16BE d.bytes.length ++ d.bytes ++ rest)) 0
    rw [readU16BE_write, Nat.mod_eq_of_lt d.port_lt] at h
    simp only [List.length_append, List.length_cons, writeU32BE_length] at h
    rw [← h]
    congr 1
    · simp [Datagram.wire]
    · omega
  · have h := readU16BE_append (done ++ (writeU32BE d.id ++ (UInt8.ofNat d.host.length :: (d.host ++ writeU16BE d.port))))
      (writeU16BE d.bytes.length ++ (d.bytes ++ rest)) 0
    rw [readU16BE_write, Nat.mod_eq_of_lt d.bytes_lt] at h
    simp only [List.length_append, List.length_cons, writeU32BE_length, writeU16BE_length] at h
    rw [← h]
    congr 1
    · simp [Datagram.wire]
    · omega

theorem datagramEnd_wire (done rest : Bytes) (d : Datagram) :
    datagramEnd (done ++ (d.wire ++ rest)) done.length = some (done.length + d.wire.length) := by
  obtain ⟨-, hhost, -, hlen⟩ := wire_read done rest d
  have hwire := d.wire_length
  unfold datagramEnd
  simp only [hhost, hlen]
  rw [if_neg (by rw [List.length_append, List.length_append]; omega), hwire]
  congr 1
  omega

theorem take_drop_mid (done mid rest : Bytes) :
    ((done ++ (mid ++ rest)).take (done.length + mid.length)).drop done.length = mid := by
  rw [← List.append_assoc, List.take_left' (by simp), List.drop_left]

theorem wire_pos (d : Datagram) : 0 < d.wire.length := by
  rw [d.wire_length]
  omega

theorem drop_split (b : Bytes) (k m : Nat) : b.drop k = (b.drop k).take m ++ b.drop (k + m) := by
  rw [← List.drop_drop, List.take_append_drop]

/-- Bytes read as a number are the bytes it is written as. -/
theorem writeU32BE_readU32BE {b : Bytes} {off : Nat} (h : off + 4 ≤ b.length) :
    writeU32BE (readU32BE b off) = (b.drop off).take 4 ∧ readU32BE b off < 2 ^ 32 := by
  have hbyte (k : Nat) : byteAt b (off + k) = byteAt (b.drop off) k := by
    rw [byteAt, byteAt, List.getD_eq_getElem?_getD, List.getD_eq_getElem?_getD, List.getElem?_drop]
  have hread : readU32BE b off = readU32BE (b.drop off) 0 := by
    have h0 := hbyte 0
    simp only [readU32BE, Nat.zero_add, ← hbyte, h0, Nat.add_zero]
  have hlen : 4 ≤ (b.drop off).length := by
    rw [List.length_drop]
    omega
  rw [hread]
  generalize b.drop off = r at hlen
  obtain _ | ⟨w, _ | ⟨x, _ | ⟨y, _ | ⟨z, r⟩⟩⟩⟩ := r <;> simp at hlen
  have hw := w.toNat_lt
  have hx := x.toNat_lt
  have hy := y.toNat_lt
  have hz := z.toNat_lt
  have hv : readU32BE (w :: x :: y :: z :: r) 0 = w.toNat * 2 ^ 24 + x.toNat * 2 ^ 16 + y.toNat * 2 ^ 8 + z.toNat := by
    simp [readU32BE, byteAt]
  have hof (n : Nat) (u : UInt8) (hu : n % 256 = u.toNat) : UInt8.ofNat n = u := by
    rw [← UInt8.toNat_inj, UInt8.toNat_ofNat']
    exact hu
  rw [hv]
  refine ⟨?_, by omega⟩
  simp only [writeU32BE, List.take_succ_cons, List.take_zero]
  rw [hof _ w (by omega), hof _ x (by omega), hof _ y (by omega), hof _ z (by omega)]

theorem writeU16BE_readU16BE {b : Bytes} {off : Nat} (h : off + 2 ≤ b.length) :
    writeU16BE (readU16BE b off) = (b.drop off).take 2 ∧ readU16BE b off < 2 ^ 16 := by
  have hbyte (k : Nat) : byteAt b (off + k) = byteAt (b.drop off) k := by
    rw [byteAt, byteAt, List.getD_eq_getElem?_getD, List.getD_eq_getElem?_getD, List.getElem?_drop]
  have hread : readU16BE b off = readU16BE (b.drop off) 0 := by
    have h0 := hbyte 0
    simp only [readU16BE, Nat.zero_add, ← hbyte, h0, Nat.add_zero]
  have hlen : 2 ≤ (b.drop off).length := by
    rw [List.length_drop]
    omega
  rw [hread]
  generalize b.drop off = r at hlen
  obtain _ | ⟨w, _ | ⟨x, r⟩⟩ := r <;> simp at hlen
  have hw := w.toNat_lt
  have hx := x.toNat_lt
  have hv : readU16BE (w :: x :: r) 0 = w.toNat * 2 ^ 8 + x.toNat := by
    simp [readU16BE, byteAt]
  have hof (n : Nat) (u : UInt8) (hu : n % 256 = u.toNat) : UInt8.ofNat n = u := by
    rw [← UInt8.toNat_inj, UInt8.toNat_ofNat']
    exact hu
  rw [hv]
  refine ⟨?_, by omega⟩
  simp only [writeU16BE, List.take_succ_cons, List.take_zero]
  rw [hof _ w (by omega), hof _ x (by omega)]

theorem byteAt_drop {b : Bytes} {off : Nat} (h : off < b.length) :
    [UInt8.ofNat (byteAt b off)] = (b.drop off).take 1 ∧ byteAt b off < 2 ^ 8 := by
  refine ⟨?_, (b.getD off 0).toNat_lt⟩
  rw [List.drop_eq_getElem_cons h, List.take_succ_cons, List.take_zero, byteAt, UInt8.ofNat_toNat,
    List.getD_eq_getElem _ _ h]

/-- Where a datagram ends inside the batch, a record stands. -/
theorem wire_of_end {batch : Bytes} {start stop : Nat} (h : datagramEnd batch start = some stop)
    (hstop : stop ≤ batch.length) :
    ∃ d : Datagram, batch.drop start = d.wire ++ batch.drop stop ∧ stop = start + d.wire.length := by
  unfold datagramEnd at h
  simp only at h
  split_ifs at h with hp
  have hend := Option.some.inj h
  obtain ⟨n, hn⟩ : ∃ n, n = byteAt batch (start + 4) := ⟨_, rfl⟩
  obtain ⟨p, hpe⟩ : ∃ p, p = start + 5 + n := ⟨_, rfl⟩
  obtain ⟨len, hlen⟩ : ∃ len, len = readU16BE batch (p + 2) := ⟨_, rfl⟩
  rw [← hn, ← hpe, ← hlen] at hend
  rw [← hn, ← hpe] at hp
  obtain ⟨hid, hidlt⟩ := writeU32BE_readU32BE (show start + 4 ≤ batch.length by omega)
  obtain ⟨hbyte, hbytelt⟩ := byteAt_drop (show start + 4 < batch.length by omega)
  obtain ⟨hport, hportlt⟩ := writeU16BE_readU16BE (show p + 2 ≤ batch.length by omega)
  obtain ⟨hsize, hsizelt⟩ := writeU16BE_readU16BE (show p + 2 + 2 ≤ batch.length by omega)
  have hhostlen : ((batch.drop (start + 5)).take n).length = n := by
    rw [List.length_take, List.length_drop]
    omega
  have hbyteslen : ((batch.drop (p + 4)).take len).length = len := by
    rw [List.length_take, List.length_drop]
    omega
  refine ⟨⟨readU32BE batch start, (batch.drop (start + 5)).take n, readU16BE batch p, (batch.drop (p + 4)).take len,
    hidlt, by omega, hportlt, by omega⟩, ?_, ?_⟩
  · unfold Datagram.wire
    simp only
    rw [hhostlen, hbyteslen, hid, hport, hlen, hsize, ← List.singleton_append, hn, hbyte, ← hn, ← hlen]
    conv_lhs => rw [drop_split batch start 4, drop_split batch (start + 4) 1, drop_split batch (start + 5) n, ← hpe,
      drop_split batch p 2, drop_split batch (p + 2) 2, drop_split batch (p + 4) len, hend]
    simp only [List.append_assoc]
  · rw [Datagram.wire_length]
    simp only [hhostlen, hbyteslen]
    omega

/-! ### The filter and the reader on whole records -/

/-- What the filter would pass on of what it has gone over. -/
def soFar (done : Bytes) : Option (List Bytes) → Bytes
  | some ks => ks.flatten
  | none => done

theorem filterLoop_wire (held : Nat → Bool) (ds : List Datagram) (fuel : Nat) (done : Bytes)
    (kept : Option (List Bytes)) (hf : (ds.flatMap Datagram.wire).length < fuel) :
    filterLoop held (done ++ ds.flatMap Datagram.wire) fuel done.length kept =
      some (soFar done kept ++ (ds.filter fun d => held d.id).flatMap Datagram.wire) := by
  induction ds generalizing fuel done kept with
  | nil =>
    cases fuel with
    | zero => omega
    | succ fuel =>
      rw [List.flatMap_nil, List.append_nil, filterLoop, if_neg (Nat.lt_irrefl _)]
      cases kept <;> simp [soFar]
  | cons d ds ih =>
    have hpos := wire_pos d
    rw [List.flatMap_cons, List.length_append] at hf
    cases fuel with
    | zero => omega
    | succ fuel =>
      obtain ⟨hid, -⟩ := wire_read done (ds.flatMap Datagram.wire) d
      rw [List.flatMap_cons, filterLoop, if_pos (by rw [List.length_append, List.length_append]; omega),
        datagramEnd_wire]
      simp only
      rw [if_neg (by rw [List.length_append, List.length_append]; omega), hid, take_drop_mid, List.take_left]
      have hnext := fun kept => ih fuel (done ++ d.wire) kept (by omega)
      rw [List.length_append] at hnext
      simp only [List.append_assoc] at hnext
      split_ifs with hheld
      · rw [hnext, List.filter_cons, if_pos hheld, List.flatMap_cons]
        cases kept with
        | none => simp [soFar]
        | some ks => simp [soFar]
      · rw [hnext, List.filter_cons, if_neg hheld]
        cases kept with
        | none => simp [soFar]
        | some ks => simp [soFar]

theorem udpSend_wire (held : Nat → Bool) (ds : List Datagram) :
    udpSend held (ds.flatMap Datagram.wire) = some ((ds.filter fun d => held d.id).flatMap Datagram.wire) :=
  filterLoop_wire held ds _ [] none (Nat.lt_succ_self _)

theorem forEachDatagram_wire (ds : List Datagram) (fuel : Nat) (done : Bytes)
    (hf : (ds.flatMap Datagram.wire).length ≤ fuel) :
    forEachDatagram (done ++ ds.flatMap Datagram.wire) fuel done.length = ds.map Datagram.heard := by
  induction ds generalizing fuel done with
  | nil =>
    cases fuel with
    | zero => rfl
    | succ fuel => rw [List.flatMap_nil, List.append_nil, forEachDatagram, if_neg (Nat.lt_irrefl _), List.map_nil]
  | cons d ds ih =>
    have hpos := wire_pos d
    rw [List.flatMap_cons, List.length_append] at hf
    cases fuel with
    | zero => omega
    | succ fuel =>
      obtain ⟨hid, hhost, hport, -⟩ := wire_read done (ds.flatMap Datagram.wire) d
      rw [List.flatMap_cons, forEachDatagram, if_pos (by rw [List.length_append, List.length_append]; omega)]
      simp only [hid, hhost, hport, datagramEnd_wire, Option.getD_some]
      have htext : ((done ++ (d.wire ++ ds.flatMap Datagram.wire)).take (done.length + 5 + d.host.length)).drop
          (done.length + 5) = d.host := by
        have h := take_drop_mid (done ++ (writeU32BE d.id ++ [UInt8.ofNat d.host.length])) d.host
          (writeU16BE d.port ++ (writeU16BE d.bytes.length ++ d.bytes) ++ ds.flatMap Datagram.wire)
        simpa [Datagram.wire] using h
      have hbytes : ((done ++ (d.wire ++ ds.flatMap Datagram.wire)).take (done.length + d.wire.length)).drop
          (done.length + 5 + d.host.length + 4) = d.bytes := by
        have h := take_drop_mid (done ++ (writeU32BE d.id ++ (UInt8.ofNat d.host.length :: (d.host ++
          (writeU16BE d.port ++ writeU16BE d.bytes.length))))) d.bytes (ds.flatMap Datagram.wire)
        have hlen : (done ++ (writeU32BE d.id ++ (UInt8.ofNat d.host.length :: (d.host ++
            (writeU16BE d.port ++ writeU16BE d.bytes.length))))).length = done.length + 5 + d.host.length + 4 := by
          simp only [List.length_append, List.length_cons, writeU32BE_length, writeU16BE_length]
          omega
        rw [hlen, show done.length + 5 + d.host.length + 4 + d.bytes.length = done.length + d.wire.length by
          rw [d.wire_length]; omega] at h
        simpa [Datagram.wire] using h
      have hnext := ih fuel (done ++ d.wire) (by omega)
      rw [List.length_append, List.append_assoc] at hnext
      rw [htext, hbytes, hnext, List.map_cons]
      rfl

/-- What the filter passes, whatever bytes it is handed, is whole records of the batch. -/
theorem filterLoop_some {held : Nat → Bool} {batch out : Bytes} (fuel start : Nat) (kept : Option (List Bytes))
    (h : filterLoop held batch fuel start kept = some out) :
    ∃ ds : List Datagram, batch.drop start = ds.flatMap Datagram.wire := by
  induction fuel generalizing start kept with
  | zero => cases h
  | succ fuel ih =>
    rw [filterLoop] at h
    by_cases hstart : start < batch.length
    · rw [if_pos hstart] at h
      cases hend : datagramEnd batch start with
      | none =>
        rw [hend] at h
        cases h
      | some stop =>
        rw [hend] at h
        simp only at h
        split_ifs at h with hstop hheld
        all_goals
          obtain ⟨d, hd, -⟩ := wire_of_end hend (Nat.not_lt.mp hstop)
          obtain ⟨ds, hds⟩ := ih _ _ h
          exact ⟨d :: ds, by rw [hd, hds, List.flatMap_cons]⟩
    · exact ⟨[], List.drop_eq_nil_of_le (Nat.not_lt.mp hstart)⟩

theorem udpSend_some {held : Nat → Bool} {batch out : Bytes} (h : udpSend held batch = some out) :
    ∃ ds : List Datagram, batch = ds.flatMap Datagram.wire ∧
      out = (ds.filter fun d => held d.id).flatMap Datagram.wire := by
  obtain ⟨ds, hds⟩ := filterLoop_some _ _ _ h
  rw [List.drop_zero] at hds
  refine ⟨ds, hds, ?_⟩
  rw [hds, udpSend_wire] at h
  exact (Option.some.inj h).symm

/-! ### What is gathered -/

/-- A host of at most 255 bytes, and at most 65535 of payload. -/
def Send.Fits (s : Send) : Prop := s.b.length ≤ 255 ∧ s.bytes.length ≤ 65535

/-- The record a call leaves, its port cut to 16 bits. -/
def Writes (s : Send) (d : Datagram) : Prop :=
  d.id = s.id.toNat ∧ d.host = s.b ∧ d.port = s.port % 2 ^ 16 ∧ d.bytes = s.bytes

theorem writeU16BE_mod (v : Nat) : writeU16BE (v % 2 ^ 16) = writeU16BE v := by
  simp only [writeU16BE, List.cons.injEq, and_true]
  constructor <;> rw [← UInt8.toNat_inj, UInt8.toNat_ofNat', UInt8.toNat_ofNat'] <;> omega

theorem Send.writes {s : Send} (h : s.Fits) :
    ∃ d : Datagram, Writes s d ∧ s.record = d.wire ∧ d.wire.length = 9 + s.b.length + s.bytes.length := by
  have hb := h.1
  have hbytes := h.2
  refine ⟨⟨s.id.toNat, s.b, s.port % 2 ^ 16, s.bytes, s.id.toNat_lt, by omega, Nat.mod_lt _ (by decide), by omega⟩,
    ⟨rfl, rfl, rfl, rfl⟩, ?_, Datagram.wire_length _⟩
  simp only [Send.record, Datagram.wire, writeU16BE_mod]

/-- The batches handed over and what waits in the buffer are the records of `ds`. -/
structure Gathers (u : Udp) (ds : List Datagram) : Prop where
  size : u.out.length = SEND_BATCH
  room : u.outLen ≤ SEND_BATCH
  parts : ∃ (dss : List (List Datagram)) (pending : List Datagram),
    u.sent = dss.map (List.flatMap Datagram.wire) ∧ u.out.take u.outLen = pending.flatMap Datagram.wire ∧
      ds = dss.flatten ++ pending
  small : ∀ b ∈ u.sent, b.length ≤ SEND_BATCH

theorem Gathers.init : Gathers .init [] :=
  ⟨List.length_replicate, Nat.zero_le _, ⟨[], [], rfl, rfl, rfl⟩, nofun⟩

theorem Gathers.flush {u : Udp} {ds : List Datagram} (h : Gathers u ds) : Gathers u.flush ds ∧ u.flush.outLen = 0 := by
  unfold Udp.flush
  split_ifs with hzero
  · exact ⟨h, hzero⟩
  · obtain ⟨dss, pending, hsent, hpending, hds⟩ := h.parts
    refine ⟨⟨h.size, Nat.zero_le _, ⟨dss ++ [pending], [], ?_, rfl, ?_⟩, ?_⟩, rfl⟩
    · rw [List.map_append, ← hsent, hpending]
      rfl
    · rw [List.flatten_append, List.flatten_singleton, List.append_nil, hds]
    · intro b hb
      rcases List.mem_append.mp hb with hb | hb
      · exact h.small b hb
      · rw [List.mem_singleton.mp hb, List.length_take]
        exact Nat.le_trans (Nat.min_le_left _ _) h.room

theorem Gathers.sendto {u : Udp} {ds : List Datagram} (h : Gathers u ds) {s : Send} (hs : s.Fits) :
    ∃ u' d, u.sendto s = some u' ∧ Writes s d ∧ Gathers u' (ds ++ [d]) := by
  obtain ⟨d, hd, hrecord, hlen⟩ := Send.writes hs
  have hb := hs.1
  have hbytes := hs.2
  have hbatch : SEND_BATCH = 262144 := rfl
  obtain ⟨v, hv, hg, hroom⟩ : ∃ v, v = (if u.outLen + (9 + s.b.length + s.bytes.length) > u.out.length then u.flush else u) ∧
      Gathers v ds ∧ v.outLen + d.wire.length ≤ SEND_BATCH := by
    refine ⟨_, rfl, ?_⟩
    split_ifs with hfull
    · obtain ⟨hg, hzero⟩ := h.flush
      exact ⟨hg, by omega⟩
    · have := h.size
      exact ⟨h, by omega⟩
  have hfits : v.outLen + s.record.length ≤ v.out.length := by
    rw [hrecord, hg.size]
    exact hroom
  obtain ⟨dss, pending, hsent, hpending, hds⟩ := hg.parts
  have hstart : (v.out.take v.outLen).length = v.outLen := by
    rw [List.length_take]
    omega
  refine ⟨{ v with
    out := v.out.take v.outLen ++ s.record ++ v.out.drop (v.outLen + s.record.length)
    outLen := v.outLen + (9 + s.b.length + s.bytes.length)
    flushDue := true }, d, ?_, hd, ?_⟩
  · unfold Udp.sendto
    simp only
    rw [← hv, setAt, if_pos hfits, Option.map_some]
  · refine ⟨?_, by simp only; omega, ⟨dss, pending ++ [d], hsent, ?_, ?_⟩, hg.small⟩
    · simp only [List.length_append, hstart, List.length_drop]
      rw [← hg.size]
      omega
    · have hend : v.outLen + (9 + s.b.length + s.bytes.length) = (v.out.take v.outLen ++ s.record).length := by
        rw [List.length_append, hstart, hrecord, hlen]
      simp only
      rw [hend, List.take_left, hpending, hrecord, List.flatMap_append, List.flatMap_singleton]
    · rw [hds, List.append_assoc]

theorem Gathers.run {ops : List Op} (hops : ∀ s, .sendto s ∈ ops → s.Fits) {u : Udp} {ds : List Datagram}
    (h : Gathers u ds) :
    ∃ u' ds', u.run ops = some u' ∧ List.Forall₂ Writes (sends ops) ds' ∧ Gathers u' (ds ++ ds') := by
  induction ops generalizing u ds with
  | nil => exact ⟨u, [], rfl, .nil, by rwa [List.append_nil]⟩
  | cons op ops ih =>
    have hrest : ∀ s, .sendto s ∈ ops → s.Fits := fun s hs => hops s (List.mem_cons_of_mem _ hs)
    cases op with
    | sendto s =>
      obtain ⟨u₁, d, hstep, hd, hg⟩ := h.sendto (hops s List.mem_cons_self)
      obtain ⟨u', ds', hrun, hw, hg'⟩ := ih hrest hg
      refine ⟨u', d :: ds', ?_, .cons hd hw, ?_⟩
      · rw [Udp.run, Udp.step, hstep]
        exact hrun
      · rwa [List.append_assoc] at hg'
    | flush => exact ih hrest h.flush.1
    | flushNow =>
      have hdue : Gathers { u with flushDue := false } ds := ⟨h.size, h.room, h.parts, h.small⟩
      exact ih hrest hdue.flush.1

/-! ### What comes out -/

theorem mapM_udpSend (held : Nat → Bool) (dss : List (List Datagram)) :
    (dss.map (List.flatMap Datagram.wire)).mapM (udpSend held) =
      some (dss.map fun ds => (ds.filter fun d => held d.id).flatMap Datagram.wire) := by
  induction dss with
  | nil => rfl
  | cons ds dss ih => simp [List.mapM_cons, udpSend_wire, ih]

theorem delivered_wire (held : Nat → Bool) (dss : List (List Datagram)) :
    delivered held (dss.map (List.flatMap Datagram.wire)) =
      some ((dss.flatten.filter fun d => held d.id).map Datagram.heard) := by
  rw [delivered, mapM_udpSend, Option.map_some]
  congr 1
  induction dss with
  | nil => rfl
  | cons ds dss ih =>
    have hone := forEachDatagram_wire (ds.filter fun d => held d.id) _ [] (Nat.le_refl _)
    rw [List.nil_append] at hone
    rw [List.map_cons, List.flatMap_cons, List.flatten_cons, List.filter_append, List.map_append, ih, ← hone]
    rfl

/-- What was asked to be sent. -/
def Send.asked (s : Send) : Heard := ⟨s.id.toNat, s.host, s.port, s.bytes⟩

/-- What the platform makes of its record. -/
def Send.cut (s : Send) : Heard := ⟨s.id.toNat, Utf.textDecode s.b, s.port % 2 ^ 16, s.bytes⟩

theorem heard_cut {held : Nat → Bool} {ss : List Send} {ds : List Datagram} (h : List.Forall₂ Writes ss ds) :
    (ds.filter fun d => held d.id).map Datagram.heard =
      (ss.filter fun s => held s.id.toNat).map Send.cut := by
  induction h with
  | nil => rfl
  | @cons s d ss ds hw hrest ih =>
    obtain ⟨hid, hhost, hport, hbytes⟩ := hw
    have hone : d.heard = s.cut := by
      rw [Datagram.heard, Send.cut, hid, hhost, hport, hbytes]
    rw [List.filter_cons, List.filter_cons, hid]
    split_ifs
    · rw [List.map_cons, List.map_cons, ih, hone]
    · exact ih

theorem delivered_run {ops : List Op} (hops : ∀ s, .sendto s ∈ ops → s.Fits) :
    ∃ u, Udp.init.run ops = some u ∧ (∀ b ∈ u.flush.sent, b.length ≤ SEND_BATCH) ∧
      ∀ held, delivered held u.flush.sent = some (((sends ops).filter fun s => held s.id.toNat).map Send.cut) := by
  obtain ⟨u, ds, hrun, hw, hg⟩ := Gathers.init.run hops
  obtain ⟨hf, hzero⟩ := hg.flush
  refine ⟨u, hrun, hf.small, fun held => ?_⟩
  obtain ⟨dss, pending, hsent, hpending, hds⟩ := hf.parts
  have hnone : pending = [] := by
    cases pending with
    | nil => rfl
    | cons d pending =>
      have hpos := wire_pos d
      rw [hzero, List.take_zero, List.flatMap_cons] at hpending
      have := congrArg List.length hpending
      rw [List.length_append] at this
      simp only [List.length_nil] at this
      omega
  rw [hnone, List.append_nil, List.nil_append] at hds
  rw [hsent, delivered_wire, ← hds, heard_cut hw]

theorem cut_eq_asked (s : Send) :
    s.cut = s.asked ↔ s.port < 2 ^ 16 ∧ Utf.isWellFormed s.host = true ∧ s.host.head? ≠ some 0xfeff := by
  rw [Send.cut, Send.asked, Heard.mk.injEq, Send.b, Utf8.utf8Encode_eq, Utf.textDecode_eq_iff]
  refine ⟨fun ⟨_, hhost, hport, _⟩ => ⟨?_, hhost⟩, fun ⟨hport, hhost⟩ => ⟨rfl, hhost, Nat.mod_eq_of_lt hport, rfl⟩⟩
  rw [← hport]
  exact Nat.mod_lt _ (by decide)

/-- After any calls of `sendto` and `flush`, the batches handed over once the turn is flushed are within
`SEND_BATCH`, and what the host's filter passes of them reads as the datagrams from sockets held, in order
and as they were asked for, exactly when each of these has a port of 16 bits and a host that a `TextDecoder`
gives back. Of any bytes at all the filter passes only whole datagrams from sockets held. -/
theorem send_batches (held : Nat → Bool) (ops : List Op) (hops : ∀ s, .sendto s ∈ ops → s.Fits) :
    (∃ u, Udp.init.run ops = some u ∧ (∀ b ∈ u.flush.sent, b.length ≤ SEND_BATCH) ∧
      (delivered held u.flush.sent = some (((sends ops).filter fun s => held s.id.toNat).map Send.asked) ↔
        ∀ s, .sendto s ∈ ops → held s.id.toNat = true →
          s.port < 2 ^ 16 ∧ Utf.isWellFormed s.host = true ∧ s.host.head? ≠ some 0xfeff)) ∧
    ∀ batch out, udpSend held batch = some out → ∃ ds : List Datagram, batch = ds.flatMap Datagram.wire ∧
      out = (ds.filter fun d => held d.id).flatMap Datagram.wire := by
  refine ⟨?_, fun batch out h => udpSend_some h⟩
  obtain ⟨u, hrun, hsmall, hdelivered⟩ := delivered_run hops
  refine ⟨u, hrun, hsmall, ?_⟩
  have hmem (s : Send) : s ∈ sends ops ↔ .sendto s ∈ ops := by
    simp only [sends, List.mem_filterMap]
    constructor
    · rintro ⟨op, hop, heq⟩
      cases op with
      | sendto t =>
        cases heq
        exact hop
      | flush => cases heq
      | flushNow => cases heq
    · exact fun h => ⟨_, h, rfl⟩
  rw [hdelivered held, Option.some.injEq, List.map_inj_left]
  simp only [List.mem_filter, hmem, and_imp, cut_eq_asked]

theorem fits_small (id : UInt32) (port : Nat) : ∀ s, .sendto s ∈ [Op.sendto ⟨id, [0x68], port, [7]⟩] → s.Fits := by
  intro s hs
  cases List.mem_singleton.mp hs
  have hb : (Utf8.utf8Encode [0x68]).length ≤ 255 := by decide
  have hbytes : ([7] : Bytes).length ≤ 65535 := by decide
  exact ⟨hb, hbytes⟩

/-- One datagram to port 9 of a host that is held. -/
theorem send_batches_one : ∃ u, Udp.init.run [.sendto ⟨1, [0x68], 9, [7]⟩] = some u ∧
    delivered (fun _ => true) u.flush.sent = some [⟨1, [0x68], 9, [7]⟩] := by
  obtain ⟨⟨u, hrun, -, hiff⟩, -⟩ := send_batches (fun _ => true) [.sendto ⟨1, [0x68], 9, [7]⟩] (fits_small 1 9)
  refine ⟨u, hrun, hiff.mpr fun s hs _ => ?_⟩
  cases List.mem_singleton.mp hs
  exact ⟨by decide, by decide, by decide⟩

/-- A server at `stun:h:70000`: what is sent goes to port 4464. -/
theorem send_batches_wraps : ∃ u, Udp.init.run [.sendto ⟨1, [0x68], 70000, [7]⟩] = some u ∧
    delivered (fun _ => true) u.flush.sent = some [⟨1, [0x68], 4464, [7]⟩] ∧
    delivered (fun _ => true) u.flush.sent ≠ some [⟨1, [0x68], 70000, [7]⟩] := by
  obtain ⟨u, hrun, -, hdelivered⟩ := delivered_run (fits_small 1 70000)
  have hhost : Utf.textDecode (Utf8.utf8Encode [0x68]) = [0x68] := by
    rw [Utf8.utf8Encode_eq, Utf.textDecode_eq_iff]
    exact ⟨by decide, by decide⟩
  have hcut : delivered (fun _ => true) u.flush.sent = some [⟨1, [0x68], 4464, [7]⟩] := by
    rw [hdelivered]
    simp [sends, Send.cut, Send.b, hhost]
  refine ⟨u, hrun, hcut, ?_⟩
  rw [hcut]
  decide

end SeedTransport.SendBatch
