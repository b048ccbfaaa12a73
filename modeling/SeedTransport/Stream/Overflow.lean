import Mathlib
import SeedTransport.Stream.Shelf

set_option autoImplicit false

namespace SeedTransport.Stream

/-! Whether the bound on what a receiver buffers ever hits an honest peer. -/

/-! ### The network -/

/-- The offset a DATA packet carries. -/
def Packet.offset? : Packet → Option Nat
  | .data _ o _ _ => some o
  | _ => none

namespace Net

/-- A chunk that `a` has sent. -/
def Sent (N : Net) (o l : Nat) : Prop := ∃ pn floor bs, .data pn o floor bs ∈ N.a.emitted ∧ bs.length = l

/-- The chunks `a` has sent at or past what the reader at `b` has taken. -/
def outstanding (N : Net) : Nat :=
  ((N.a.emitted.filterMap Packet.offset?).filter fun o => N.b.rx.taken ≤ o).dedup.length

/-- The chunks waiting at `b` below what its reader has taken: pieces of chunks that were
split, and came whole in the end. -/
def stranded (N : Net) : Nat := (N.b.rx.ahead.keys.filter fun o => o < N.b.rx.taken).length

/-- `b` has room: a chunk of `minChunk` bytes, twice over, for each that `a` has sent past its
reader, and for each left behind three times that; and offsets fit the wire. -/
def Roomy (N : Net) : Prop :=
  N.a.accepted.flatten.length < 2 ^ 48 ∧ N.outstanding + 3 * N.stranded < 2 * N.b.rx.credit / minChunk

instance (N : Net) : Decidable N.Roomy := inferInstanceAs (Decidable (_ ∧ _))

/-- Each packet that is delivered finds room at its receiver. -/
def Meets (N : Net) : Event → Prop
  | .deliverA _ _ => N.swap.Roomy
  | .deliverB _ _ => N.Roomy
  | _ => True

instance (N : Net) : (e : Event) → Decidable (N.Meets e)
  | .deliverA _ _ => inferInstanceAs (Decidable N.swap.Roomy)
  | .deliverB _ _ => inferInstanceAs (Decidable N.Roomy)
  | .callA _ _ => inferInstanceAs (Decidable True)
  | .callB _ _ => inferInstanceAs (Decidable True)

/-- Every step of a run does. -/
def AllMeet : Net → List Event → Prop
  | _, [] => True
  | N, e :: es => N.Meets e ∧ AllMeet (N.event e) es

instance : (N : Net) → (es : List Event) → Decidable (AllMeet N es)
  | _, [] => inferInstanceAs (Decidable True)
  | N, e :: es =>
    have := instDecidableAllMeet (N.event e) es
    inferInstanceAs (Decidable (N.Meets e ∧ AllMeet (N.event e) es))

/-- What an honest pair keeps, in the direction from `a` to `b`. -/
structure Tidy (N : Net) : Prop where
  laid : Laid N.a.purse.Piece
  shelved : N.b.purse.Shelved N.Sent
  kept : N.b.cause ≠ some .overflow

theorem Tidy.init : Tidy {} := by
  refine ⟨⟨?_, ?_, ?_⟩, ⟨?_, ?_, rfl, ?_⟩, by simp⟩
  · rintro o l (⟨c, hc, -⟩ | ⟨pn, floor, bs, hm, -⟩)
    · cases hc
    · cases hm
  · rintro o l o' l' (⟨c, hc, -⟩ | ⟨pn, floor, bs, hm, -⟩)
    · cases hc
    · cases hm
  · rintro o l l' (⟨c, hc, -⟩ | ⟨pn, floor, bs, hm, -⟩)
    · cases hc
    · cases hm
  · intro o bs h
    cases h
  · intro o bs h
    cases h
  · intro x hx
    cases hx

theorem Sent.laid {N : Net} (h : Laid N.a.purse.Piece) : Laid N.Sent :=
  h.mono fun _ _ hs => .inr hs

/-- The sender does something. -/
theorem Tidy.sender {N : Net} {input : Option Packet} {s : UdpStream} (h : Tidy N) (hN : Reachable N)
    (hs : Purse.Steps input N.a.purse s.purse) : Tidy { N with a := s } := by
  obtain ⟨ha, -⟩ := Reachable.fair hN
  refine ⟨Purse.laid_steps ha h.laid hs, h.shelved.mono fun o l => ?_, h.kept⟩
  rintro ⟨pn, floor, bs, hm, hl⟩
  exact ⟨pn, floor, bs, (Purse.Grows.steps ha hs).emitted.subset hm, hl⟩

theorem Sent.mem_offsets {N : Net} {o l : Nat} (h : N.Sent o l) : o ∈ N.a.emitted.filterMap Packet.offset? := by
  obtain ⟨pn, floor, bs, hm, -⟩ := h
  exact List.mem_filterMap.2 ⟨_, hm, rfl⟩

/-- A packet of `a`'s as `b` reads it is a chunk `a` sent, while offsets fit the wire. -/
theorem sent_of_cut {N : Net} (hN : Reachable N) (hfit : N.a.accepted.flatten.length < 2 ^ 48) {p : Packet}
    (hp : p ∈ N.a.emitted) {pn o floor : Nat} {bs : Bytes} (hd : p.cut = .data pn o floor bs) :
    N.Sent o bs.length := by
  obtain ⟨ha, -⟩ := Reachable.fair hN
  obtain ⟨hs, -⟩ := hN.sane
  obtain ⟨pn', o', floor', rfl, -, rfl⟩ := cut_eq_data hd
  have hend : o' + bs.length ≤ N.a.tx.nextOffset := (ha.sent pn' o' floor' bs hp).1
  have hnext : N.a.tx.nextOffset ≤ N.a.tx.written := hs.fair.tx.next_le
  have hwritten : N.a.tx.written = N.a.accepted.flatten.length := hs.fair.tx.written
  rw [Nat.mod_eq_of_lt (by omega)]
  exact ⟨pn', floor', bs, hp, rfl⟩

/-- The receiver does something, or takes in a packet it has room for. -/
theorem Tidy.receiver {N : Net} {input : Option Packet} {s : UdpStream} (h : Tidy N) (hN : Reachable N)
    (hs : Purse.Steps input N.b.purse s.purse)
    (hi : ∀ q, input = some q → N.Roomy ∧ ∃ p ∈ N.a.emitted, q = p.cut) : Tidy { N with b := s } := by
  obtain ⟨-, hb⟩ := Reachable.fair hN
  have hlaid := Sent.laid h.laid
  have hdata : ∀ pn o floor bs, input = some (.data pn o floor bs) → N.Sent o bs.length := by
    intro pn o floor bs he
    obtain ⟨hroomy, p, hp, hcut⟩ := hi _ he
    exact sent_of_cut hN hroomy.1 hp hcut.symm
  refine ⟨h.laid, h.shelved.steps hlaid hs hdata, ?_⟩
  cases input with
  | none => exact hs.kept (by simp) h.kept
  | some q =>
    obtain ⟨hroomy, -⟩ := hi q rfl
    exact (hs.roomy hlaid h.shelved hb hdata (by simp) (fun o l hl => Sent.mem_offsets hl) hroomy.2 h.kept).2

theorem Tidy.event {N : Net} (h : Tidy N) (hN : Reachable N) {e : Event}
    (he : ∀ now i, e = .deliverB now i → N.Roomy) : Tidy (N.event e) := by
  obtain ⟨ha, hb⟩ := hN.sane
  cases e with
  | callA now c => exact h.sender hN (N.a.call_purse now c ha.fair.tx)
  | callB now c => exact h.receiver hN (N.b.call_purse now c hb.fair.tx) (by simp)
  | deliverA now i =>
    simp only [Net.event]
    cases hp : N.b.emitted[i]? with
    | none => exact h
    | some p => exact h.sender hN (N.a.receive_purse now _ ha.fair.tx ha.quiet)
  | deliverB now i =>
    simp only [Net.event]
    cases hp : N.a.emitted[i]? with
    | none => exact h
    | some p =>
      have hmem := List.mem_of_getElem? hp
      refine h.receiver hN (N.b.receive_purse now _ hb.fair.tx hb.quiet) fun q hq => ⟨he now i rfl, p, hmem, ?_⟩
      rw [decode_stamp_encode _ rfl p (ha.fair.wire.sendable p hmem)] at hq
      exact (Option.some.inj hq).symm

theorem Tidy.run {N : Net} (h : Tidy N) (hN : Reachable N) {es : List Event} (hes : N.AllMeet es) :
    Tidy (N.run es) := by
  induction es generalizing N with
  | nil => exact h
  | cons e es ih =>
    refine ih (h.event hN fun now i he => ?_) (hN.event e) hes.2
    have hmeets := hes.1
    rw [he] at hmeets
    exact hmeets

/-- The same step seen from the other end. -/
def Event.swap : Event → Event
  | .callA now c => .callB now c
  | .callB now c => .callA now c
  | .deliverA now i => .deliverB now i
  | .deliverB now i => .deliverA now i

theorem event_swap (N : Net) (e : Event) : (N.event e).swap = N.swap.event e.swap := by
  cases e <;> rfl

theorem run_swap (N : Net) (es : List Event) : (N.run es).swap = N.swap.run (es.map Event.swap) := by
  induction es generalizing N with
  | nil => rfl
  | cons e es ih =>
    change ((N.event e).run es).swap = _
    rw [ih, event_swap]
    rfl

theorem AllMeet.swap {N : Net} {es : List Event} (h : N.AllMeet es) : N.swap.AllMeet (es.map Event.swap) := by
  induction es generalizing N with
  | nil => trivial
  | cons e es ih =>
    refine ⟨?_, ?_⟩
    · have hmeets := h.1
      cases e <;> exact hmeets
    · rw [← event_swap]
      exact ih h.2

/-- While every packet delivered finds room at its receiver, neither end is failed by the bound
on what it buffers. -/
theorem never_overflows (es : List Event) (h : AllMeet {} es) :
    (run {} es).a.cause ≠ some .overflow ∧ (run {} es).b.cause ≠ some .overflow := by
  refine ⟨?_, (Tidy.init.run .refl h).kept⟩
  have hswap := (Tidy.init.run .refl h.swap).kept
  change ((({} : Net).swap).run (es.map Event.swap)).b.cause ≠ some .overflow at hswap
  rw [← run_swap] at hswap
  exact hswap

theorem never_overflows_read :
    let es := [.callA 0 .start, .callB 0 .start, .callA 0 (.send [1, 2, 3]), .deliverB 0 0, .callB 0 .turn,
      .deliverA 0 0]
    (run {} es).b.rx.held.slices = 1 ∧
      (run {} es).a.cause ≠ some .overflow ∧ (run {} es).b.cause ≠ some .overflow := by
  intro es
  exact ⟨by decide +kernel, never_overflows es (by decide +kernel)⟩

end Net

/-! ### One byte at a time

An honest sender whose writes are a byte each, and a receiver whose reader is busy. -/

/-- A sender with nothing to send again, on a path that carries `maxPacket`. -/
structure Rested (s : UdpStream) : Prop where
  out : s.out = true
  gone : s.gone = false
  closing : s.closing = false
  lost : s.tx.lost = .empty
  suspects : s.tx.suspects = []
  undo : s.tx.undo = none
  probes : s.tx.probes = []
  reprobe : s.tx.reprobe = false
  packetBytes : s.tx.packetBytes = maxPacket
  window : initialWindow ≤ s.tx.window
  peerCredit : initialCredit ≤ s.tx.peerCredit
  head : s.tx.sentHead ≤ s.tx.sentOffsets.length

/-- All `k` bytes it was given are acked, in packets up to `k`. -/
structure Idle (k : Nat) (s : UdpStream) : Prop extends Rested s where
  unsent : s.tx.unsent = .empty
  written : s.tx.written = k
  nextOffset : s.tx.nextOffset = k
  chunks : s.tx.chunks = .empty
  inFlight : s.tx.inFlight = .empty
  weight : s.tx.bytesInFlight = 0
  oldestPn : s.tx.oldestPn = k + 1
  nextPn : s.tx.nextPn = k + 1
  largestAcked : s.tx.largestAcked ≤ k

/-- One more is written. -/
structure Loaded (k : Nat) (s : UdpStream) : Prop extends Rested s where
  unsent : s.tx.unsent = Pieces.empty.push [0]
  written : s.tx.written = k + 1
  nextOffset : s.tx.nextOffset = k
  chunks : s.tx.chunks = .empty
  inFlight : s.tx.inFlight = .empty
  weight : s.tx.bytesInFlight = 0
  oldestPn : s.tx.oldestPn = k + 1
  nextPn : s.tx.nextPn = k + 1
  largestAcked : s.tx.largestAcked ≤ k

/-- It is sent, in packet `k + 1`. -/
structure Flying (k : Nat) (now : ℚ) (s : UdpStream) : Prop extends Rested s where
  unsent : s.tx.unsent = .empty
  written : s.tx.written = k + 1
  nextOffset : s.tx.nextOffset = k + 1
  chunks : s.tx.chunks = OrdMap.empty.set k [0]
  inFlight : s.tx.inFlight = OrdMap.empty.set (k + 1) ⟨k, 28, now⟩
  weight : s.tx.bytesInFlight = 28
  oldestPn : s.tx.oldestPn = k + 1
  nextPn : s.tx.nextPn = k + 2
  largestAcked : s.tx.largestAcked ≤ k

theorem Idle.oldestChunk {k : Nat} {s : UdpStream} (h : Idle k s) :
    ∃ offsets head, s.tx.oldestChunk = ({ s.tx with sentOffsets := offsets, sentHead := head }, none) ∧
      head ≤ offsets.length := by
  obtain ⟨offsets, head, he, hle, hhead, -, hfound⟩ := Sending.oldestChunk_spec s.tx h.head
  refine ⟨offsets, head, Prod.ext he ?_, hle⟩
  rw [hhead]
  cases ho : (offsets.drop head).head? with
  | none => rfl
  | some o =>
    obtain ⟨c, hc⟩ := hfound o ho
    rw [h.chunks] at hc
    cases hc

theorem arm_eq (s : UdpStream) : ∃ t, s.arm = { s with recoveryAt := t } := by
  unfold UdpStream.arm
  split
  · exact ⟨_, rfl⟩
  · split
    · exact ⟨_, rfl⟩
    · exact ⟨_, rfl⟩

theorem flushLoop_sends {now : ℚ} {n probes o : Nat} {s : UdpStream} {tx : Sending} {c : Bytes}
    (hw : ¬(probes = 0 ∧ (s.tx.bytesInFlight : ℚ) + s.tx.packetBytes > s.tx.window))
    (hn : s.tx.nextChunk (decide (probes > 0)) = (tx, some o)) (hc : tx.chunks.get o = some c) :
    UdpStream.flushLoop now (n + 1) probes s =
      UdpStream.flushLoop now n (probes - 1) ({ s with tx := tx }.sendChunk now o c) := by
  rw [UdpStream.flushLoop, if_neg hw, hn]
  simp only [hc, Option.getD_some]

theorem flushLoop_rests {now : ℚ} {n probes : Nat} {s : UdpStream} {tx : Sending}
    (hw : ¬(probes = 0 ∧ (s.tx.bytesInFlight : ℚ) + s.tx.packetBytes > s.tx.window))
    (hn : s.tx.nextChunk (decide (probes > 0)) = (tx, none)) :
    UdpStream.flushLoop now (n + 1) probes s = { s with tx := { tx with windowLimited := false } } := by
  rw [UdpStream.flushLoop, if_neg hw, hn]

theorem nextChunk_fresh {tx : Sending} (hl : tx.lost = .empty) :
    tx.nextChunk false = if tx.fresh > 0 then (tx.cutChunk, some tx.nextOffset) else (tx, none) := by
  have hlost : tx.nextLost tx.lost.keys = (tx, none) := by
    rw [hl]
    rfl
  simp only [Sending.nextChunk, hlost]
  rfl

theorem Loaded.flush {k : Nat} {s : UdpStream} (h : Loaded k s) (hk : k < initialCredit) (now : ℚ) :
    Flying k now (s.flush now 0) ∧ (s.flush now 0).emitted = s.emitted ++ [.data (k + 1) k (k + 1) [0]] := by
  have hroom : maxPacket - dataHeader = 1425 := rfl
  have hone : (Pieces.empty.push [0]).bytes = 1 := rfl
  have hwin := h.window
  have hcredit := h.peerCredit
  have hfresh : s.tx.fresh = 1 := by
    rw [Sending.fresh, h.unsent, h.packetBytes, h.nextOffset, hone]
    omega
  have hbound : UdpStream.flushBound s.tx = 1 := by
    rw [UdpStream.flushBound, h.unsent, h.lost, h.chunks]
    rfl
  have hcut : s.tx.cutChunk = { s.tx with
      unsent := .empty
      chunks := OrdMap.empty.set k [0]
      nextOffset := k + 1
      sentOffsets := s.tx.sentOffsets ++ [k] } := by
    rw [Sending.cutChunk, hfresh, h.unsent, h.chunks, h.nextOffset]
    rfl
  have hwide : initialWindow = 12000 := by
    simp only [initialWindow, basePacket]
    norm_num
  have hfirst : ¬(0 = 0 ∧ (s.tx.bytesInFlight : ℚ) + s.tx.packetBytes > s.tx.window) := by
    rw [h.weight, h.packetBytes]
    simp only [maxPacket]
    push_cast
    intro hc
    linarith [hc.2]
  have hnext : s.tx.nextChunk (decide (0 > 0)) = (s.tx.cutChunk, some s.tx.nextOffset) := by
    rw [show decide (0 > 0) = false from rfl, nextChunk_fresh h.lost, if_pos (by omega)]
  have hget : s.tx.cutChunk.chunks.get s.tx.nextOffset = some [0] := by
    rw [hcut, h.nextOffset]
    exact OrdMap.get_set_self _ _ _
  -- What is sent, and a second look that finds nothing more.
  obtain ⟨s₁, hs₁⟩ : ∃ s₁, s₁ = UdpStream.sendChunk { s with tx := s.tx.cutChunk } now k [0] := ⟨_, rfl⟩
  have htx : s₁.tx = { s.tx with
      unsent := .empty
      chunks := OrdMap.empty.set k [0]
      nextOffset := k + 1
      sentOffsets := s.tx.sentOffsets ++ [k]
      nextPn := k + 2
      inFlight := OrdMap.empty.set (k + 1) ⟨k, 28, now⟩
      bytesInFlight := 28
      lastSentData := now } := by
    rw [hs₁]
    simp only [UdpStream.sendChunk, UdpStream.emit, hcut, h.nextPn, h.inFlight, h.weight]
    rfl
  have hemit : s₁.emitted = s.emitted ++ [.data (k + 1) k (k + 1) [0]] := by
    rw [hs₁]
    simp only [UdpStream.sendChunk, UdpStream.emit, hcut, h.nextPn, h.probes, h.oldestPn]
  have hrest : s₁.out = true ∧ s₁.gone = false ∧ s₁.closing = false := by
    rw [hs₁]
    exact ⟨h.out, h.gone, h.closing⟩
  have hsecond : ¬(0 - 1 = 0 ∧ (s₁.tx.bytesInFlight : ℚ) + s₁.tx.packetBytes > s₁.tx.window) := by
    rw [htx]
    simp only [h.packetBytes, maxPacket]
    push_cast
    intro hc
    linarith [hc.2]
  have hnone : s₁.tx.nextChunk (decide (0 - 1 > 0)) = (s₁.tx, none) := by
    rw [show decide (0 - 1 > 0) = false from rfl, nextChunk_fresh (by rw [htx]; exact h.lost), if_neg]
    rw [htx]
    simp [Sending.fresh]
  have hflush : s.flush now 0 = ({ s₁ with tx := { s₁.tx with windowLimited := false } } : UdpStream).arm := by
    rw [UdpStream.flush, if_neg (by simp [h.out, h.gone]), hbound]
    rw [flushLoop_sends hfirst hnext hget, h.nextOffset, ← hs₁, flushLoop_rests hsecond hnone]
  obtain ⟨t, ht⟩ := arm_eq { s₁ with tx := { s₁.tx with windowLimited := false } }
  rw [hflush, ht]
  refine ⟨⟨⟨hrest.1, hrest.2.1, hrest.2.2, ?_, ?_, ?_, ?_, ?_, ?_, ?_, ?_, ?_⟩, ?_, ?_, ?_, ?_, ?_, ?_, ?_, ?_, ?_⟩, hemit⟩
  all_goals simp only [htx]
  · exact h.lost
  · exact h.suspects
  · exact h.undo
  · exact h.probes
  · exact h.reprobe
  · exact h.packetBytes
  · exact h.window
  · exact h.peerCredit
  · rw [List.length_append]
    exact h.head.trans (Nat.le_add_right _ _)
  · exact h.written
  · exact h.oldestPn
  · exact h.largestAcked

theorem Idle.send {k : Nat} {s : UdpStream} (h : Idle k s) (hk : k < initialCredit) (now : ℚ) :
    Flying k now (s.send now [0]).1 ∧
      (s.send now [0]).1.emitted = s.emitted ++ [.data (k + 1) k (k + 1) [0]] := by
  obtain ⟨offsets, head, hold, hle⟩ := h.oldestChunk
  have hleft : s.tx.buffered = ({ s.tx with sentOffsets := offsets, sentHead := head }, 0) := by
    rw [Sending.buffered, hold, h.written, h.nextOffset]
    simp
  obtain ⟨s₁, hs₁⟩ : ∃ s₁ : UdpStream, s₁ = { s with
      accepted := s.accepted ++ [[0]]
      tx := { s.tx with
        sentOffsets := offsets
        sentHead := head
        unsent := s.tx.unsent.push [0]
        written := s.tx.written + 1 } } := ⟨_, rfl⟩
  have hsend : (s.send now [0]).1 = s₁.flush now 0 := by
    rw [UdpStream.send, if_neg (by simp [h.gone, h.closing]), hleft]
    dsimp only
    rw [if_neg (by decide), if_neg (by decide), hs₁]
    rfl
  have hloaded : Loaded k s₁ := by
    rw [hs₁]
    exact ⟨⟨h.out, h.gone, h.closing, h.lost, h.suspects, h.undo, h.probes, h.reprobe, h.packetBytes, h.window,
      h.peerCredit, hle⟩, by rw [h.unsent], by rw [h.written], h.nextOffset, h.chunks, h.inFlight, h.weight,
      h.oldestPn, h.nextPn, h.largestAcked⟩
  have hemit : s₁.emitted = s.emitted := by rw [hs₁]
  rw [hsend, ← hemit]
  exact hloaded.flush hk now

theorem sample_eq (tx : Sending) (latest delay : ℚ) : ∃ srtt rttvar minRtt latestRtt,
    tx.sample latest delay =
      { tx with srtt := srtt, rttvar := rttvar, minRtt := minRtt, latestRtt := latestRtt } := by
  unfold Sending.sample
  split
  · exact ⟨_, _, _, _, rfl⟩
  · exact ⟨_, _, _, _, rfl⟩

theorem delete_set_self {α : Type} (k : Nat) (v : α) :
    (OrdMap.empty.set k v : OrdMap Nat α).delete k = .empty := by
  simp [OrdMap.delete, OrdMap.set, OrdMap.put, OrdMap.empty]

/-- The ack of the one packet out takes it out of flight. -/
theorem Flying.ackNamed {k : Nat} {t : ℚ} {s : UdpStream} (h : Flying k t s) :
    ∃ window f, initialWindow ≤ window ∧ UdpStream.ackNamed s.tx (k + 1 : Nat) [(k + 1, 0)] = ({ s.tx with
      inFlight := .empty
      bytesInFlight := 0
      chunks := .empty
      ptoCount := 0
      window := window }, some f) := by
  have hrange : UdpStream.ackNamed s.tx (k + 1 : Nat) [(k + 1, 0)] =
      Sending.ackPacket (k + 1 : Nat) (s.tx, none) (k + 1) := by
    have htop : Sending.rangeTop ((s.tx.nextPn : Int) - 1) none (k + 1) = (k + 1 : Nat) := by
      rw [h.nextPn]
      simp only [Sending.rangeTop]
      push_cast
      omega
    have hlo : max 0 s.tx.oldestPn = k + 1 := by
      rw [h.oldestPn]
      omega
    have hcount : (((k + 1 : Nat) : Int) + 1 - ((k + 1 : Nat) : Int)).toNat = 1 := by omega
    simp only [UdpStream.ackNamed, List.foldl_cons, List.foldl_nil, Sending.ackRange, htop, hlo]
    rw [if_neg (by omega), hcount]
    rfl
  have hfly : s.tx.inFlight.get (k + 1) = some ⟨k, 28, t⟩ := by
    rw [h.inFlight]
    exact OrdMap.get_set_self _ _ _
  have hwin := h.window
  have hpos : (0 : ℚ) < s.tx.window := lt_of_lt_of_le (by
    simp only [initialWindow, basePacket]
    norm_num) hwin
  have hflows : (0 : ℚ) ≤ flows := by
    simp only [flows]
    norm_num
  have hgrow : (0 : ℚ) ≤ flows * s.tx.packetBytes * (28 : Nat) / s.tx.window := by positivity
  have hnext : initialWindow ≤ if (t : WithBot ℚ) > s.tx.recoveryStart ∧ s.tx.windowLimited then
      s.tx.window + (if (s.tx.window : WithTop ℚ) < s.tx.threshold then ((28 : Nat) : ℚ)
        else flows * s.tx.packetBytes * (28 : Nat) / s.tx.window)
      else s.tx.window := by
    split
    · split
      · push_cast
        linarith
      · linarith
    · exact hwin
  refine ⟨_, ⟨k, 28, t⟩, hnext, ?_⟩
  rw [hrange, Sending.ackPacket]
  simp only [hfly]
  refine Prod.ext ?_ (by simp)
  simp only
  rw [h.inFlight, h.weight, h.chunks, delete_set_self, delete_set_self]
  rfl

/-- Nothing in flight is nothing lost. -/
theorem detectLoss_idle {tx : Sending} (t : ℚ) (hfly : tx.nextPn = tx.oldestPn)
    (hacked : tx.largestAcked < tx.oldestPn) (hundo : tx.undo = none) :
    tx.detectLoss t = { tx with lossTime := ⊤ } := by
  have hold : ∀ tx : Sending, tx.nextPn = tx.oldestPn → tx.advanceOldest = tx := by
    intro tx htx
    have hz : tx.nextPn - tx.oldestPn = 0 := by omega
    rw [Sending.advanceOldest, hz]
    rfl
  have hnone : (tx.largestAcked - tx.oldestPn).toNat = 0 := by omega
  simp only [Sending.detectLoss]
  rw [hold { tx with lossTime := ⊤ } hfly]
  simp only [hnone, List.range'_zero, List.foldl_nil, Sending.cutWindow]
  have hlost : ¬(⊥ : WithBot ℚ) > tx.recoveryStart := not_lt_bot
  rw [if_neg hlost, if_neg (by simp [hundo])]
  exact hold { tx with lossTime := ⊤ } hfly

theorem clearSuspects_none {tx : Sending} (ranges : List (Nat × Nat)) (hs : tx.suspects = [])
    (hu : tx.undo = none) : tx.clearSuspects ranges = tx := by
  have hsame : ({ tx with suspects := tx.suspects.filter fun pn => !names ranges pn } : Sending) = tx := by
    rw [hs, List.filter_nil, ← hs]
  simp only [Sending.clearSuspects, hsame]
  rw [hu]

theorem Flying.onRanges {k : Nat} {t : ℚ} {s : UdpStream} (h : Flying k t s) (now : ℚ) (delay : Nat) :
    ∃ tx, s.onRanges now delay (k + 1, 0) [(k + 1, 0)] = { s with tx := tx } ∧ Idle (k + 1) { s with tx := tx } := by
  obtain ⟨window, f, hwin, hacked⟩ := h.ackNamed
  have hlargest : min (((k + 1 : Nat)) : Int) ((s.tx.nextPn : Int) - 1) = (k + 1 : Nat) := by
    rw [h.nextPn]
    push_cast
    omega
  unfold UdpStream.onRanges
  extract_lets largest newest s₁ s₂ tx₁ tx₂ tx₃ s₃
  have hl : largest = (k + 1 : Nat) := hlargest
  have h₁ : s₁ = { s with tx := { s.tx with
      inFlight := .empty
      bytesInFlight := 0
      chunks := .empty
      ptoCount := 0
      window := window } } := by
    simp only [s₁, hl, hacked]
  have h₂ : s₂ = s₁ := by
    simp only [s₂]
    rw [if_neg]
    rw [h₁]
    simp [h.probes]
  have h₃ : tx₁ = s₁.tx := by
    simp only [tx₁, h₂]
    refine clearSuspects_none _ ?_ ?_
    · rw [h₁]
      exact h.suspects
    · rw [h₁]
      exact h.undo
  have h₄ : tx₂ = { s₁.tx with largestAcked := (k + 1 : Nat), oldestPn := k + 2 } := by
    have hmax : max s₁.tx.largestAcked largest = (k + 1 : Nat) := by
      have := h.largestAcked
      rw [h₁, hl]
      push_cast
      omega
    have hcount : s₁.tx.nextPn - s₁.tx.oldestPn = 1 := by
      rw [h₁]
      simp only [h.nextPn, h.oldestPn]
      omega
    have hfirst : Sending.firstInFlight s₁.tx.inFlight 1 s₁.tx.oldestPn = k + 2 := by
      rw [h₁]
      simp only [h.oldestPn]
      rfl
    simp only [tx₂, h₃, hmax, Sending.advanceOldest, hcount, hfirst]
  obtain ⟨srtt, rttvar, minRtt, latestRtt, h₅⟩ : ∃ srtt rttvar minRtt latestRtt, tx₃ =
      { tx₂ with srtt := srtt, rttvar := rttvar, minRtt := minRtt, latestRtt := latestRtt } := by
    simp only [tx₃]
    clear_value newest
    split
    · exact sample_eq _ _ _
    · exact ⟨_, _, _, _, rfl⟩
  have h₆ : s₃ = { s₂ with tx := { tx₃ with lossTime := ⊤ } } := by
    have hloss : tx₃.detectLoss now = { tx₃ with lossTime := ⊤ } := by
      refine detectLoss_idle now ?_ ?_ ?_
      · rw [h₅, h₄, h₁]
        exact h.nextPn
      · rw [h₅, h₄]
        push_cast
        omega
      · rw [h₅, h₄, h₁]
        exact h.undo
    simp only [s₃, hloss]
  have hidle : Idle (k + 1) s₃ := by
    rw [h₆, h₂, h₅, h₄, h₁]
    exact ⟨⟨h.out, h.gone, h.closing, h.lost, h.suspects, h.undo, h.probes, h.reprobe, h.packetBytes, hwin,
      h.peerCredit, h.head⟩, h.unsent, h.written, h.nextOffset, rfl, rfl, rfl, rfl, h.nextPn, le_refl _⟩
  have hshape : s₃ = { s with tx := s₃.tx } := by
    rw [h₆, h₂, h₁]
  refine ⟨s₃.tx, ?_, hshape ▸ hidle⟩
  rw [if_neg (by simp [hidle.reprobe]), ← hshape]

/-- With nothing to send a flush sends nothing. -/
theorem Idle.flush {k : Nat} {s : UdpStream} (h : Idle k s) (now : ℚ) :
    Idle k (s.flush now 0) ∧ (s.flush now 0).emitted = s.emitted := by
  have hbound : UdpStream.flushBound s.tx = 0 := by
    rw [UdpStream.flushBound, h.unsent, h.lost, h.chunks]
    rfl
  have hwindow : ¬(0 = 0 ∧ (s.tx.bytesInFlight : ℚ) + s.tx.packetBytes > s.tx.window) := by
    have hwin := h.window
    rw [h.weight, h.packetBytes]
    simp only [initialWindow, basePacket, maxPacket] at hwin ⊢
    push_cast at hwin ⊢
    intro hc
    linarith [hc.2]
  have hnone : s.tx.nextChunk (decide (0 > 0)) = (s.tx, none) := by
    rw [show decide (0 > 0) = false from rfl, nextChunk_fresh h.lost, if_neg]
    simp [Sending.fresh, h.unsent]
  obtain ⟨t, ht⟩ := arm_eq { s with tx := { s.tx with windowLimited := false } }
  have hflush : s.flush now 0 = { s with tx := { s.tx with windowLimited := false }, recoveryAt := t } := by
    rw [UdpStream.flush, if_neg (by simp [h.out, h.gone]), hbound, flushLoop_rests hwindow hnone, ht]
  rw [hflush]
  exact ⟨⟨⟨h.out, h.gone, h.closing, h.lost, h.suspects, h.undo, h.probes, h.reprobe, h.packetBytes, h.window,
    h.peerCredit, h.head⟩, h.unsent, h.written, h.nextOffset, h.chunks, h.inFlight, h.weight, h.oldestPn, h.nextPn,
    h.largestAcked⟩, rfl⟩

/-- Its ack comes. -/
theorem Flying.acked {k : Nat} {t : ℚ} {s : UdpStream} (h : Flying k t s) (hk : k + 1 < 2 ^ 48) (now : ℚ)
    (credit delay : Nat) :
    Idle (k + 1) (s.receive now (stamp (List.replicate 8 0) (encode (.ack credit delay [(k + 1, 0)])))) ∧
      (s.receive now (stamp (List.replicate 8 0) (encode (.ack credit delay [(k + 1, 0)])))).emitted =
        s.emitted := by
  have hdec : decode (stamp (List.replicate 8 0) (encode (.ack credit delay [(k + 1, 0)]))) =
      some (.ack (credit % 2 ^ 48) (delay % 2 ^ 16) [(k + 1, 0)]) := by
    rw [decode_stamp_encode _ rfl _ (by simp [Packet.Sendable])]
    simp only [Packet.cut, List.map_cons, List.map_nil, Nat.mod_eq_of_lt hk, Nat.zero_mod]
  have hfly : Flying k t (({ s with lastHeard := now } : UdpStream).credited (credit % 2 ^ 48)) :=
    ⟨⟨h.out, h.gone, h.closing, h.lost, h.suspects, h.undo, h.probes, h.reprobe, h.packetBytes, h.window,
      h.peerCredit.trans (le_max_left _ _), h.head⟩, h.unsent, h.written, h.nextOffset, h.chunks, h.inFlight,
      h.weight, h.oldestPn, h.nextPn, h.largestAcked⟩
  obtain ⟨tx, hranges, hidle⟩ := hfly.onRanges now (delay % 2 ^ 16)
  unfold UdpStream.receive
  rw [if_neg (by simp [h.gone])]
  simp only [hdec, UdpStream.onAck, hranges]
  unfold UdpStream.afterAck
  rw [if_neg (by simpa using hidle.closing)]
  exact hidle.flush now

/-! A receiver whose reader is busy with the first byte. -/

structure Busy (k : Nat) (s : UdpStream) : Prop where
  out : s.out = true
  gone : s.gone = false
  reading : s.reading = true
  taken : s.rx.taken = 1
  slices : s.rx.held.slices + 1 = k
  bytes : s.rx.held.bytes + 1 = k
  ahead : s.rx.ahead = .empty
  aheadBytes : s.rx.aheadBytes = 0
  ranges : s.rx.ranges = [(k, 0)]
  unacked : s.rx.unacked = 0
  credit : s.rx.credit = initialCredit
  creditEnd : s.rx.creditEnd = initialCredit
  advertised : s.rx.advertised = initialCredit + 1

theorem Busy.heard {k : Nat} {s : UdpStream} (h : Busy k s) (now : ℚ) : Busy k { s with lastHeard := now } :=
  ⟨h.out, h.gone, h.reading, h.taken, h.slices, h.bytes, h.ahead, h.aheadBytes, h.ranges, h.unacked, h.credit,
    h.creditEnd, h.advertised⟩

theorem store_inOrder {rx : Receiving} {o : Nat} (bs : Bytes) (ho : o = rx.inOrder) (ha : rx.ahead = .empty) :
    rx.store o bs = { rx with furthest := max rx.furthest (o + bs.length), held := rx.held.push bs } := by
  have hz : rx.ahead.size = 0 := by
    rw [ha]
    rfl
  unfold Receiving.store
  dsimp only
  split
  · rw [hz]
    refine if_neg fun hc => ?_
    have hpos : rx.ahead.size > 0 := hc.2
    omega
  · rename_i hne
    exact absurd ho hne

theorem received_next {s : UdpStream} {k : Nat} (now : ℚ) (hr : s.rx.ranges = [(k, 0)]) :
    ∃ at', s.received now (k + 1) = { s with rx := { s.rx with
      ranges := [(k + 1, 0)]
      largestAt := at'
      unacked := s.rx.unacked + 1
      turnDue := true } } := by
  have hrecord : record s.rx.ranges (k + 1) = [(k + 1, 0)] := by
    rw [hr]
    simp [record, recordFrom, maxRanges]
  have hlargest : UdpStream.largestIn s.rx.ranges = k := by
    rw [hr]
    rfl
  unfold UdpStream.received
  dsimp only
  rw [hrecord]
  split
  · rename_i hne
    exact absurd (by rw [hlargest]; push_cast; rfl) hne
  · exact ⟨_, rfl⟩

/-- The next byte comes in order, and is one more slice. -/
theorem Busy.onChunk {k : Nat} {s : UdpStream} (h : Busy k s) (hk : k < initialCredit) (now : ℚ) (floor : Nat) :
    ∃ rx, s.onChunk now (k + 1) k floor [0] =
      (if 2 * initialCredit / minChunk < k then ({ s with rx := rx } : UdpStream).fail .overflow else
        { s with rx := rx }) ∧ rx.held.slices = k ∧ rx.held.bytes = k ∧ rx.ranges = [(k + 1, 0)] ∧ rx.unacked = 1 ∧
      rx.taken = 1 ∧ rx.ahead = .empty ∧ rx.aheadBytes = 0 ∧ rx.credit = initialCredit ∧
      rx.creditEnd = initialCredit ∧ rx.advertised = initialCredit + 1 := by
  have hpush : (s.rx.held.push [0]).slices = k := by
    simpa [Pieces.push, Pieces.slices] using h.slices
  have hbytes : (s.rx.held.push [0]).bytes = k := by
    simpa using h.bytes
  have hat : k = s.rx.taken + s.rx.held.bytes := by
    have := h.bytes
    rw [h.taken]
    omega
  obtain ⟨at', hreceived⟩ := received_next now h.ranges
  obtain ⟨rx, hrx⟩ : ∃ rx : Receiving, rx = { s.rx with
      ranges := [(k + 1, 0)]
      largestAt := at'
      unacked := s.rx.unacked + 1
      turnDue := true
      furthest := max s.rx.furthest (k + [(0 : UInt8)].length)
      held := s.rx.held.push [0] } := ⟨_, rfl⟩
  have hstore : ({ s.rx with
      ranges := dropBelow floor [(k + 1, 0)]
      largestAt := at'
      unacked := s.rx.unacked + 1
      turnDue := true } : Receiving).store k [0] = rx := by
    rw [hrx]
    exact store_inOrder [0] hat h.ahead
  have hover : rx.overflows = decide (2 * initialCredit / minChunk < k) := by
    rw [hrx]
    simp only [Receiving.overflows, h.aheadBytes, h.credit, hpush, h.ahead]
    simp [OrdMap.size, OrdMap.empty]
  refine ⟨rx, ?_, by rw [hrx]; exact hpush, by rw [hrx]; exact hbytes, by rw [hrx], by rw [hrx, h.unacked],
    by rw [hrx]; exact h.taken, by rw [hrx]; exact h.ahead, by rw [hrx]; exact h.aheadBytes,
    by rw [hrx]; exact h.credit, by rw [hrx]; exact h.creditEnd, by rw [hrx]; exact h.advertised⟩
  unfold UdpStream.onChunk
  rw [if_neg (by
    have := h.bytes
    rw [h.taken, h.credit]
    simp only [List.length_singleton]
    omega), hreceived]
  simp only [hstore, hover, decide_eq_true_eq]

/-- Then the turn acks it. -/
theorem Busy.next {k : Nat} {s : UdpStream} (h : Busy k s) (hk : k < initialCredit)
    (hfits : k ≤ 2 * initialCredit / minChunk) (now : ℚ) (floor : Nat) :
    ∃ delay, Busy (k + 1) ((s.onChunk now (k + 1) k floor [0]).turn now) ∧
      ((s.onChunk now (k + 1) k floor [0]).turn now).emitted =
        s.emitted ++ [.ack (initialCredit + 1) delay [(k + 1, 0)]] := by
  obtain ⟨rx, hchunk, hslices, hbytes, hranges, hunacked, htaken, hahead, haheadBytes, hcredit, hend, hadv⟩ :=
    h.onChunk hk now floor
  rw [hchunk, if_neg (by omega)]
  have hdeliver : ({ s with rx := { rx with turnDue := false } } : UdpStream).deliver now =
      { s with rx := { rx with turnDue := false } } := by
    have hhand : ({ s with rx := { rx with turnDue := false } } : UdpStream).handOver =
        { s with rx := { rx with turnDue := false } } := if_neg (by simp [h.reading])
    have hgrant : ({ s with rx := { rx with turnDue := false } } : UdpStream).grant now =
        { s with rx := { rx with turnDue := false } } := if_neg (by
      simp only [htaken, hend]
      decide)
    simp only [UdpStream.deliver, hhand, hgrant]
    rw [if_neg]
    simp only [htaken, hcredit, hadv]
    decide
  refine ⟨UdpStream.delayField (now - rx.largestAt), ?_⟩
  have hturn : ({ s with rx := rx } : UdpStream).turn now =
      ({ s with rx := { rx with turnDue := false, unacked := 0, advertised := initialCredit + 1 } } : UdpStream).emit
        now (.ack (initialCredit + 1) (UdpStream.delayField (now - rx.largestAt)) [(k + 1, 0)]) := by
    simp only [UdpStream.turn, hdeliver]
    rw [if_pos (by rw [hunacked]; decide)]
    unfold UdpStream.sendAck
    rw [if_neg (by simp [h.out, h.gone])]
    dsimp only
    rw [if_neg (by
      rw [htaken, hcredit, hadv]
      omega), htaken, hcredit, hranges, Nat.add_comm 1]
  rw [hturn]
  exact ⟨⟨h.out, h.gone, h.reading, htaken, by simp [UdpStream.emit, hslices], by simp [UdpStream.emit, hbytes],
    hahead, haheadBytes, hranges, rfl, hcredit, hend, rfl⟩, rfl⟩

namespace Net

/-- Both ends start, the first byte goes to the reader, which is busy with it from then on, and
the path is found to carry `maxPacket`. -/
def opening : List Event :=
  [.callA 0 .start, .callB 0 .start, .callB 0 .reader, .callA 0 (.send [0]), .deliverB 0 0, .callB 0 .turn,
    .deliverA 0 0, .deliverB 0 1, .callB 0 .turn, .deliverA 0 1]

/-- Byte `k` is written, sent, received and acked. -/
def byte (k : Nat) : List Event :=
  [.callA 0 (.send [0]), .deliverB 0 (k + 1), .callB 0 .turn, .deliverA 0 (k + 1)]

/-- `n` bytes more, one at a time. -/
def tinyWrites (n : Nat) : List Event := opening ++ (List.range n).flatMap fun i => byte (i + 1)

/-- Where they stand after `k` bytes. -/
structure Stands (k : Nat) (N : Net) : Prop where
  sender : Idle k N.a
  receiver : Busy k N.b
  sent : N.a.emitted.length = k + 1
  acked : N.b.emitted.length = k + 1

theorem eq_empty {κ α : Type} {m : OrdMap κ α} (h : m.entries = []) : m = .empty := by
  obtain ⟨entries, nodup⟩ := m
  subst h
  rfl

theorem pieces_eq_empty {q : Pieces} (h : q.list = []) : q = .empty := by
  obtain ⟨list, nonempty⟩ := q
  subst h
  rfl

theorem stands_opening : Stands 1 (run {} opening) := by
  have ha : (run {} opening).a.out = true ∧ (run {} opening).a.gone = false ∧
      (run {} opening).a.closing = false ∧ (run {} opening).a.emitted.length = 2 := by decide +kernel
  have hempty : (run {} opening).a.tx.lost.entries = [] ∧ (run {} opening).a.tx.chunks.entries = [] ∧
      (run {} opening).a.tx.inFlight.entries = [] ∧ (run {} opening).a.tx.unsent.list = [] ∧
      (run {} opening).b.rx.ahead.entries = [] := by decide +kernel
  have htx : (run {} opening).a.tx.suspects = [] ∧ (run {} opening).a.tx.undo = none ∧
      (run {} opening).a.tx.probes = [] ∧ (run {} opening).a.tx.reprobe = false ∧
      (run {} opening).a.tx.packetBytes = maxPacket ∧ initialWindow ≤ (run {} opening).a.tx.window ∧
      initialCredit ≤ (run {} opening).a.tx.peerCredit ∧
      (run {} opening).a.tx.sentHead ≤ (run {} opening).a.tx.sentOffsets.length := by decide +kernel
  have hcount : (run {} opening).a.tx.written = 1 ∧ (run {} opening).a.tx.nextOffset = 1 ∧
      (run {} opening).a.tx.bytesInFlight = 0 ∧ (run {} opening).a.tx.oldestPn = 1 + 1 ∧
      (run {} opening).a.tx.nextPn = 1 + 1 ∧ (run {} opening).a.tx.largestAcked ≤ (1 : Nat) := by decide +kernel
  have hb : (run {} opening).b.out = true ∧ (run {} opening).b.gone = false ∧
      (run {} opening).b.reading = true ∧ (run {} opening).b.emitted.length = 2 := by decide +kernel
  have hrx : (run {} opening).b.rx.taken = 1 ∧ (run {} opening).b.rx.held.slices + 1 = 1 ∧
      (run {} opening).b.rx.held.bytes + 1 = 1 ∧ (run {} opening).b.rx.aheadBytes = 0 ∧
      (run {} opening).b.rx.ranges = [(1, 0)] ∧ (run {} opening).b.rx.unacked = 0 ∧
      (run {} opening).b.rx.credit = initialCredit ∧ (run {} opening).b.rx.creditEnd = initialCredit ∧
      (run {} opening).b.rx.advertised = initialCredit + 1 := by decide +kernel
  generalize run {} opening = N at ha hempty htx hcount hb hrx
  obtain ⟨hlost, hchunks, hfly, hunsent, hahead⟩ := hempty
  obtain ⟨hsus, hundo, hprobes, hre, hbytes, hwin, hcredit, hhead⟩ := htx
  obtain ⟨hwritten, hnext, hweight, hold, hpn, hacked⟩ := hcount
  obtain ⟨htaken, hslices, hheld, haheadBytes, hranges, hunacked, hcr, hend, hadv⟩ := hrx
  exact ⟨⟨⟨ha.1, ha.2.1, ha.2.2.1, eq_empty hlost, hsus, hundo, hprobes, hre, hbytes, hwin, hcredit, hhead⟩,
    pieces_eq_empty hunsent, hwritten, hnext, eq_empty hchunks, eq_empty hfly, hweight, hold, hpn, hacked⟩,
    ⟨hb.1, hb.2.1, hb.2.2.1, htaken, hslices, hheld, eq_empty hahead, haheadBytes, hranges, hunacked, hcr, hend, hadv⟩,
    ha.2.2.2, hb.2.2.2⟩

/-- What the receiver makes of the packet of byte `k`. -/
theorem receive_byte {s : UdpStream} {k : Nat} (hg : s.gone = false) (hk : k + 1 < 2 ^ 48) (now : ℚ) :
    s.receive now (stamp (List.replicate 8 0) (encode (.data (k + 1) k (k + 1) [0]))) =
      ({ s with lastHeard := now } : UdpStream).onChunk now (k + 1) k (k + 1) [0] := by
  have hdec : decode (stamp (List.replicate 8 0) (encode (.data (k + 1) k (k + 1) [0]))) =
      some (.data (k + 1) k (k + 1) [0]) := by
    rw [decode_stamp_encode _ rfl _ (by simp [Packet.Sendable])]
    simp only [Packet.cut, Nat.mod_eq_of_lt hk, Nat.mod_eq_of_lt (Nat.lt_of_succ_lt hk)]
  unfold UdpStream.receive
  rw [if_neg (by simp [hg])]
  simp only [hdec]

/-- After the write the packet is the last sent. -/
theorem Stands.written {k : Nat} {N : Net} (h : Stands k N) (hk : k < initialCredit) :
    Flying k 0 (N.a.call 0 (.send [0])) ∧
      (N.a.call 0 (.send [0])).emitted = N.a.emitted ++ [.data (k + 1) k (k + 1) [0]] ∧
      (N.a.call 0 (.send [0])).emitted[k + 1]? = some (.data (k + 1) k (k + 1) [0]) := by
  obtain ⟨hfly, hemit⟩ := h.sender.send hk 0
  refine ⟨hfly, hemit, ?_⟩
  change (N.a.send 0 [0]).1.emitted[k + 1]? = _
  rw [hemit, ← h.sent]
  exact List.getElem?_concat_length

theorem wire_fits {k : Nat} (hk : k < initialCredit) : k + 1 < 2 ^ 48 := by
  simp only [initialCredit] at hk
  omega

/-- The write, and its packet received. -/
theorem Stands.received {k : Nat} {N : Net} (h : Stands k N) (hk : k < initialCredit) :
    N.run [.callA 0 (.send [0]), .deliverB 0 (k + 1)] =
      ⟨N.a.call 0 (.send [0]), UdpStream.onChunk { N.b with lastHeard := 0 } 0 (k + 1) k (k + 1) [0]⟩ := by
  obtain ⟨-, -, hget⟩ := h.written hk
  change (Net.mk (N.a.call 0 (.send [0])) N.b).event (.deliverB 0 (k + 1)) = _
  generalize N.a.call 0 (.send [0]) = a at hget
  simp only [Net.event, hget, Net.deliver, receive_byte h.receiver.gone (wire_fits hk)]

theorem Stands.byte {k : Nat} {N : Net} (h : Stands k N) (hk : k < initialCredit)
    (hfits : k ≤ 2 * initialCredit / minChunk) : Stands (k + 1) (N.run (byte k)) := by
  have hreceived := h.received hk
  obtain ⟨hfly, hemit, -⟩ := h.written hk
  obtain ⟨delay, hbusy, hacks⟩ := (h.receiver.heard 0).next hk hfits 0 (k + 1)
  obtain ⟨hidle, hsame⟩ := hfly.acked (wire_fits hk) 0 (initialCredit + 1) delay
  have hrun : N.run (Net.byte k) = ((N.run [.callA 0 (.send [0]), .deliverB 0 (k + 1)]).event (.callB 0 .turn)).event
      (.deliverA 0 (k + 1)) := rfl
  rw [hrun, hreceived]
  generalize N.a.call 0 (.send [0]) = a at hfly hemit hidle hsame
  generalize UdpStream.onChunk { N.b with lastHeard := 0 } 0 (k + 1) k (k + 1) [0] = b at hbusy hacks
  have hack : (b.turn 0).emitted[k + 1]? = some (.ack (initialCredit + 1) delay [(k + 1, 0)]) := by
    rw [hacks, ← h.acked]
    exact List.getElem?_concat_length
  simp only [Net.event, UdpStream.call, hack, Net.deliver]
  refine ⟨hidle, hbusy, ?_, ?_⟩
  · rw [hsame, hemit, List.length_append, h.sent]
    rfl
  · rw [hacks, List.length_append]
    simp [h.acked]

theorem Stands.overflow {k : Nat} {N : Net} (h : Stands k N) (hk : k < initialCredit)
    (hover : 2 * initialCredit / minChunk < k) :
    (N.run [.callA 0 (.send [0]), .deliverB 0 (k + 1)]).b.cause = some .overflow := by
  obtain ⟨rx, hchunk, -⟩ := (h.receiver.heard 0).onChunk hk 0 (k + 1)
  rw [h.received hk, hchunk, if_pos hover, UdpStream.fail, if_neg (by simpa using h.receiver.gone)]

theorem stands_tinyWrites (n : Nat) (hn : n ≤ 2 * initialCredit / minChunk) :
    Stands (n + 1) (run {} (tinyWrites n)) := by
  induction n with
  | zero => exact stands_opening
  | succ n ih =>
    have hprev := ih (Nat.le_of_succ_le hn)
    have hsplit : run {} (tinyWrites (n + 1)) = (run {} (tinyWrites n)).run (byte (n + 1)) := by
      simp only [tinyWrites, List.range_succ, List.flatMap_append, List.flatMap_cons, List.flatMap_nil,
        List.append_nil, ← List.append_assoc, Net.run, List.foldl_append]
    rw [hsplit]
    have hle : 2 * initialCredit / minChunk < initialCredit := by decide
    exact hprev.byte (by omega) hn

/-- One byte past the count of slices the receiver may hold, written by an honest sender and
received in order, fails the link. -/
theorem tiny_writes_overflow :
    let n := 2 * initialCredit / minChunk
    n = 8192 ∧ (run {} (tinyWrites n ++ [.callA 0 (.send [0]), .deliverB 0 (n + 2)])).b.cause = some .overflow := by
  intro n
  have hle : n < initialCredit := by decide
  have hN := stands_tinyWrites n (le_refl n)
  refine ⟨rfl, ?_⟩
  have hrun : run {} (tinyWrites n ++ [.callA 0 (.send [0]), .deliverB 0 (n + 2)]) =
      (run {} (tinyWrites n)).run [.callA 0 (.send [0]), .deliverB 0 (n + 1 + 1)] := by
    simp only [Net.run, List.foldl_append]
  rw [hrun]
  have hlt : n + 1 < initialCredit := by decide
  exact hN.overflow hlt (Nat.lt_succ_self n)

end Net

end SeedTransport.Stream
