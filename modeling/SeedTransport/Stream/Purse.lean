import Mathlib
import SeedTransport.Stream.Net

set_option autoImplicit false

namespace SeedTransport.Stream

/-! What flow control depends on at one end, and the few ways it ever changes. The ledger
leaves out the credit: these are the books that keep it. -/

/-- The credit of one end: what it may send, and what it takes. -/
structure Purse where
  packetBytes : Nat
  nextOffset : Nat
  peerCredit : Nat
  chunks : OrdMap Nat Bytes
  emitted : List Packet
  taken : Nat
  held : Pieces
  ahead : OrdMap Nat Bytes
  aheadBytes : Int
  furthest : Nat
  credit : Nat
  advertised : Nat
  gone : Bool
  cause : Option Cause

def UdpStream.purse (s : UdpStream) : Purse where
  packetBytes := s.tx.packetBytes
  nextOffset := s.tx.nextOffset
  peerCredit := s.tx.peerCredit
  chunks := s.tx.chunks
  emitted := s.emitted
  taken := s.rx.taken
  held := s.rx.held
  ahead := s.rx.ahead
  aheadBytes := s.rx.aheadBytes
  furthest := s.rx.furthest
  credit := s.rx.credit
  advertised := s.rx.advertised
  gone := s.gone
  cause := s.cause

namespace Purse

def inOrder (p : Purse) : Nat := p.taken + p.held.bytes

/-- The bound at the end of `onChunk`. -/
def Overflows (p : Purse) : Prop :=
  p.aheadBytes > (2 * p.credit : Nat) ∨ p.held.slices + p.ahead.size > 2 * p.credit / minChunk

/-- One change to the credit, on the way through an operation that was given packet `input`. -/
inductive Step (input : Option Packet) (p : Purse) : Purse → Prop where
  | resize (n : Nat) (h : Ledger.Sized n) : Step input p { p with packetBytes := n }
  | split (o : Nat) (c : Bytes) (hc : p.chunks.get o = some c)
      (hlt : p.packetBytes - dataHeader < c.length) : Step input p { p with
      chunks := (p.chunks.set o (c.take (p.packetBytes - dataHeader))).set
        (o + (p.packetBytes - dataHeader)) (c.drop (p.packetBytes - dataHeader)) }
  | cut (c : Bytes) (h0 : c ≠ []) (hroom : c.length ≤ p.packetBytes - dataHeader)
      (hcredit : p.nextOffset + c.length ≤ p.peerCredit) : Step input p { p with
      chunks := p.chunks.set p.nextOffset c
      nextOffset := p.nextOffset + c.length }
  | transmit (pn o floor : Nat) (c : Bytes) (hc : p.chunks.get o = some c) : Step input p { p with
      emitted := p.emitted ++ [.data pn o floor c] }
  | acked (o : Nat) : Step input p { p with chunks := p.chunks.delete o }
  | credited (credit delay : Nat) (ranges : List (Nat × Nat))
      (hi : input = some (.ack credit delay ranges)) : Step input p { p with
      peerCredit := max p.peerCredit credit }
  | say (delay : Nat) (ranges : List (Nat × Nat)) : Step input p { p with
      emitted := p.emitted ++ [.ack (p.taken + p.credit) delay ranges]
      advertised := p.taken + p.credit }
  | probe (pn : Nat) : Step input p { p with emitted := p.emitted ++ [.probe pn] }
  | close : Step input p { p with emitted := p.emitted ++ [.close] }
  | stop (why : Cause) (h : why ≠ .overflow) : Step input p { p with gone := true, cause := some why }
  | overflow (pn o floor : Nat) (bs : Bytes) (hi : input = some (.data pn o floor bs)) (h : p.Overflows) :
      Step input p { p with gone := true, cause := some .overflow }
  | arriveInOrder (pn o floor : Nat) (bs : Bytes) (hi : input = some (.data pn o floor bs))
      (hcredit : o + bs.length ≤ p.taken + p.credit) (ho : o = p.inOrder) (ha : p.ahead.get o = none) :
      Step input p { p with
      furthest := max p.furthest (o + bs.length)
      held := p.held.push bs }
  | arriveAhead (pn o floor : Nat) (bs : Bytes) (hi : input = some (.data pn o floor bs))
      (hcredit : o + bs.length ≤ p.taken + p.credit) (ho : p.inOrder < o) (ha : p.ahead.get o = none) :
      Step input p { p with
      furthest := max p.furthest (o + bs.length)
      ahead := p.ahead.set o bs
      aheadBytes := p.aheadBytes + (dataHeader + bs.length : Nat) }
  | arriveStale (pn o floor : Nat) (bs : Bytes) (hi : input = some (.data pn o floor bs))
      (hcredit : o + bs.length ≤ p.taken + p.credit) : Step input p { p with
      furthest := max p.furthest (o + bs.length) }
  | drain (next : Bytes) (ha : p.ahead.get p.inOrder = some next) : Step input p { p with
      ahead := p.ahead.delete p.inOrder
      aheadBytes := p.aheadBytes - (dataHeader + next.length : Nat)
      held := p.held.push next }
  | clear : Step input p { p with ahead := .empty, aheadBytes := 0 }
  | hand (n : Nat) (hi : input = none) (hn : n ≤ p.held.bytes) : Step input p { p with
      held := (p.held.take n).2
      taken := p.taken + n }
  | double (hi : input = none) : Step input p { p with credit := min (2 * p.credit) maxCredit }

abbrev Steps (input : Option Packet) : Purse → Purse → Prop :=
  Relation.ReflTransGen (Step input)

theorem Steps.one {input : Option Packet} {p p' : Purse} (h : Step input p p') : Steps input p p' :=
  Relation.ReflTransGen.single h

end Purse

/-! ### Every operation of a stream is a sequence of these -/

open Purse (Step Steps)

/-- The purse of `s` with its sending half replaced. -/
def UdpStream.purseOf (s : UdpStream) (tx : Sending) : Purse := { s with tx := tx }.purse

namespace Sending

theorem advanceOldest_purse (s : UdpStream) (tx : Sending) : s.purseOf tx.advanceOldest = s.purseOf tx := rfl

theorem sample_purse (s : UdpStream) (tx : Sending) (latest delay : ℚ) :
    s.purseOf (tx.sample latest delay) = s.purseOf tx := by
  unfold sample
  split <;> rfl

theorem clearSuspects_purse (s : UdpStream) (tx : Sending) (ranges : List (Nat × Nat)) :
    s.purseOf (tx.clearSuspects ranges) = s.purseOf tx := by
  unfold clearSuspects
  dsimp only
  split
  · split <;> rfl
  · rfl

theorem ackPacket_purse (input : Option Packet) (s : UdpStream) (largest : Int) (a : Sending × Option Flight)
    (pn : Nat) : Steps input (s.purseOf a.1) (s.purseOf (ackPacket largest a pn).1) := by
  unfold ackPacket
  dsimp only
  split
  · exact .refl
  · rename_i f _
    exact Steps.one (Step.acked f.offset)

theorem ackPackets_purse (input : Option Packet) (s : UdpStream) (largest : Int) (pns : List Nat)
    (a : Sending × Option Flight) :
    Steps input (s.purseOf a.1) (s.purseOf (pns.foldl (ackPacket largest) a).1) := by
  induction pns generalizing a with
  | nil => exact .refl
  | cons pn pns ih => exact (ackPacket_purse input s largest a pn).trans (ih _)

theorem ackRange_purse (input : Option Packet) (s : UdpStream) (largest : Int)
    (a : (Sending × Option Flight) × Option Int) (r : Nat × Nat) :
    Steps input (s.purseOf a.1.1) (s.purseOf (ackRange largest a r).1.1) := by
  unfold ackRange
  dsimp only
  split
  · exact .refl
  · exact ackPackets_purse input s largest _ a.1

theorem ackRanges_purse (input : Option Packet) (s : UdpStream) (largest : Int) (rs : List (Nat × Nat))
    (a : (Sending × Option Flight) × Option Int) :
    Steps input (s.purseOf a.1.1) (s.purseOf (rs.foldl (ackRange largest) a).1.1) := by
  induction rs generalizing a with
  | nil => exact .refl
  | cons r rs ih => exact (ackRange_purse input s largest a r).trans (ih _)

theorem scanPacket_purse (s : UdpStream) (t delay persistence : ℚ) (a : LossScan) (pn : Nat) :
    s.purseOf (scanPacket t delay persistence a pn).tx = s.purseOf a.tx := by
  unfold scanPacket
  split
  · rfl
  · split
    · dsimp only
      split
      · rfl
      · split
        · rfl
        · split <;> rfl
    · rfl

theorem scanPackets_purse (s : UdpStream) (t delay persistence : ℚ) (pns : List Nat) (a : LossScan) :
    s.purseOf (pns.foldl (scanPacket t delay persistence) a).tx = s.purseOf a.tx := by
  induction pns generalizing a with
  | nil => rfl
  | cons pn pns ih => exact (ih _).trans (scanPacket_purse s t delay persistence a pn)

theorem cutWindow_purse (s : UdpStream) (t : ℚ) (a : LossScan) : s.purseOf (cutWindow t a) = s.purseOf a.tx := by
  have suspects : ∀ tx : Sending, s.purseOf (if tx.undo.isSome then
        if tx.suspects.length + a.lost.length > maxSuspects then
          { tx with undo := none, suspects := [] }
        else { tx with suspects := tx.suspects ++ a.lost }
      else tx) = s.purseOf tx := by
    intro tx
    split
    · split <;> rfl
    · rfl
  unfold cutWindow
  dsimp only
  rw [suspects]
  split <;> rfl

theorem detectLoss_purse (s : UdpStream) (tx : Sending) (t : ℚ) : s.purseOf (tx.detectLoss t) = s.purseOf tx := by
  unfold detectLoss
  rw [advanceOldest_purse, cutWindow_purse]
  exact scanPackets_purse s t _ _ _ { tx := ({ tx with lossTime := ⊤ }).advanceOldest }

theorem rerouted_purse (s : UdpStream) (tx : Sending) (now rttMs : ℚ) :
    s.purseOf (tx.rerouted now rttMs) = { s.purseOf tx with packetBytes := basePacket } :=
  congrArg (fun p : Purse => { p with packetBytes := basePacket })
    (sample_purse s { tx with
      window := initialWindow, threshold := ⊤, recoveryStart := (now : ℚ), undo := none,
      suspects := [], minRtt := ⊤ } rttMs 0)

theorem timeout_purse (input : Option Packet) (s : UdpStream) (tx : Sending) :
    Steps input (s.purseOf tx) (s.purseOf tx.timeout) := by
  unfold timeout
  dsimp only
  split
  · exact Steps.one (Step.resize basePacket (.inl rfl))
  · exact .refl

theorem oldestChunk_purse (s : UdpStream) (tx : Sending) : s.purseOf tx.oldestChunk.1 = s.purseOf tx := by
  unfold oldestChunk
  dsimp only
  split <;> rfl

theorem fit_purse (input : Option Packet) (s : UdpStream) (tx : Sending) {o : Nat} {c : Bytes}
    (hc : tx.chunks.get o = some c) : Steps input (s.purseOf tx) (s.purseOf (tx.fit o c)) := by
  unfold fit
  dsimp only
  split
  · exact .refl
  · rename_i hlt
    exact Steps.one (Step.split o c hc (Nat.lt_of_not_le hlt))

theorem nextLost_purse (input : Option Packet) (s : UdpStream) (offsets : List Nat) (tx : Sending) :
    Steps input (s.purseOf tx) (s.purseOf (tx.nextLost offsets).1) := by
  induction offsets generalizing tx with
  | nil => exact .refl
  | cons offset rest ih =>
    cases hc : tx.chunks.get offset with
    | some chunk =>
      rw [nextLost_kept rest hc]
      exact fit_purse input s { tx with lost := tx.lost.delete offset } hc
    | none =>
      rw [nextLost_acked rest hc]
      exact ih { tx with lost := tx.lost.delete offset }

/-- New bytes are cut no longer than a packet and no further than the peer's credit. -/
theorem cutChunk_purse (input : Option Packet) (s : UdpStream) (tx : Sending) (hf : 0 < tx.fresh) :
    Steps input (s.purseOf tx) (s.purseOf tx.cutChunk) := by
  have hle : tx.fresh ≤ tx.unsent.bytes := Nat.min_le_left _ _
  have hlen : (tx.unsent.take tx.fresh).1.length = tx.fresh := by
    rw [Pieces.take_fst, List.length_take]
    exact Nat.min_eq_left hle
  have hroom : tx.fresh ≤ tx.packetBytes - dataHeader := (Nat.min_le_right _ _).trans (Nat.min_le_left _ _)
  have hcredit : tx.fresh ≤ tx.peerCredit - tx.nextOffset := (Nat.min_le_right _ _).trans (Nat.min_le_right _ _)
  have hcut : Step input (s.purseOf tx) _ := Step.cut (tx.unsent.take tx.fresh).1
    (by rw [← List.length_pos_iff, hlen]; exact hf) (by rw [hlen]; exact hroom) (by
      rw [hlen]
      change tx.nextOffset + tx.fresh ≤ tx.peerCredit
      omega)
  rw [hlen] at hcut
  exact Steps.one hcut

theorem nextChunk_purse (input : Option Packet) (s : UdpStream) (tx : Sending) (probe : Bool)
    (hl : (s.books tx).TxFair) (hg : s.gone = false) :
    Steps input (s.purseOf tx) (s.purseOf (tx.nextChunk probe).1) := by
  have hlost := nextLost_purse input s tx.lost.keys tx
  have hfair := hl.steps (nextLost_steps input s hg tx.lost.keys tx hl.head hl.room_pos).1
  have hcases := nextChunk_cases tx probe
  generalize tx.nextLost tx.lost.keys = r at hlost hfair hcases
  obtain ⟨tx', offset⟩ := r
  dsimp only at hlost hfair hcases
  rcases hcases with ⟨o, -, he⟩ | ⟨-, ⟨hf, he⟩ | ⟨-, -, o, ho, he⟩ | ⟨-, he⟩⟩
  · rw [he]
    exact hlost
  · rw [he]
    exact hlost.trans (cutChunk_purse input s tx' hf)
  · obtain ⟨offsets, head, hold, -, hhead, -, hfound⟩ := oldestChunk_spec tx' hfair.head
    obtain ⟨c, hc⟩ := hfound o (hhead ▸ ho)
    have hget : tx'.oldestChunk.1.chunks.get o = some c := by
      rw [hold]
      exact hc
    rw [he, hget, Option.getD_some]
    have hfit := fit_purse input s tx'.oldestChunk.1 hget
    rw [oldestChunk_purse] at hfit
    exact hlost.trans hfit
  · rw [he]
    cases probe with
    | false => exact hlost
    | true =>
      change Steps input (s.purseOf tx) (s.purseOf tx'.oldestChunk.1)
      rw [oldestChunk_purse]
      exact hlost

end Sending

namespace UdpStream

theorem flushLoop_purse (input : Option Packet) (now : ℚ) (n probes : Nat) (s : UdpStream)
    (hg : s.gone = false) (hl : s.ledger.TxFair) : Steps input s.purse (flushLoop now n probes s).purse := by
  induction n generalizing probes s with
  | zero => exact .refl
  | succ n ih =>
    unfold flushLoop
    split
    · exact .refl
    · have hpurse := Sending.nextChunk_purse input s s.tx (decide (probes > 0)) hl hg
      obtain ⟨hnext, hgot⟩ := Sending.nextChunk_steps input s hg s.tx (decide (probes > 0)) hl
      revert hpurse hnext hgot
      generalize s.tx.nextChunk (decide (probes > 0)) = r
      obtain ⟨tx, offset⟩ := r
      intro hpurse hnext hgot
      cases offset with
      | none => exact hpurse
      | some offset =>
        obtain ⟨c, hc⟩ := hgot offset rfl
        dsimp only at hc hpurse ⊢
        rw [hc, Option.getD_some]
        have hsent : Ledger.Steps input s.ledger (sendChunk { s with tx := tx } now offset c).ledger :=
          Relation.ReflTransGen.trans hnext (sendChunk_steps input s tx now hc)
        have hsend : Steps input (s.purseOf tx) (sendChunk { s with tx := tx } now offset c).purse :=
          Steps.one (Step.transmit _ offset _ c hc)
        exact (hpurse.trans hsend).trans (ih _ _ hg (hl.steps hsent))

theorem arm_purse (s : UdpStream) : s.arm.purse = s.purse := by
  unfold arm
  split
  · rfl
  · split <;> rfl

theorem flush_purse (input : Option Packet) (s : UdpStream) (now : ℚ) (probes : Nat) (hl : s.ledger.TxFair) :
    Steps input s.purse (s.flush now probes).purse := by
  unfold flush
  split
  · exact .refl
  · rename_i h
    rw [arm_purse]
    exact flushLoop_purse input now _ probes s (by simpa using fun hg => h (Or.inr hg)) hl

theorem fail_purse (input : Option Packet) (s : UdpStream) (why : Cause) (h : why ≠ .overflow) :
    Steps input s.purse (s.fail why).purse := by
  unfold fail
  split
  · exact .refl
  · exact Steps.one (Step.stop why h)

theorem sendClose_purse (input : Option Packet) (s : UdpStream) (now : ℚ) :
    Steps input s.purse (s.sendClose now).purse := by
  unfold sendClose
  split
  · exact (Relation.ReflTransGen.single Step.close).trans
      ((Relation.ReflTransGen.single Step.close).trans (Relation.ReflTransGen.single Step.close))
  · exact .refl

theorem endStream_purse (input : Option Packet) (s : UdpStream) (now : ℚ) (why : Cause) (h : why ≠ .overflow) :
    Steps input s.purse (s.endStream now why).purse := by
  unfold endStream
  split
  · exact .refl
  · exact (sendClose_purse input s now).trans (fail_purse input _ why h)

theorem sendAck_purse (input : Option Packet) (s : UdpStream) (now : ℚ) :
    Steps input s.purse (s.sendAck now).purse := by
  unfold sendAck
  split
  · exact .refl
  · dsimp only
    have hsay : ∀ s : UdpStream, ∀ delay ranges, s.rx.advertised = s.rx.taken + s.rx.credit →
        Steps input s.purse (s.emit now (.ack (s.rx.taken + s.rx.credit) delay ranges)).purse := by
      intro s delay ranges ha
      have h : Step input s.purse _ := Step.say delay ranges
      have he : { s.purse with
          emitted := s.purse.emitted ++ [.ack (s.purse.taken + s.purse.credit) delay ranges]
          advertised := s.purse.taken + s.purse.credit } =
          (s.emit now (.ack (s.rx.taken + s.rx.credit) delay ranges)).purse := by
        simp only [purse, emit, ha]
      exact he ▸ Steps.one h
    have hfirst : ∀ delay ranges, Steps input s.purse
        (({ s with rx := { s.rx with unacked := 0, advertised := s.rx.taken + s.rx.credit } }).emit now
          (.ack (s.rx.taken + s.rx.credit) delay ranges)).purse := fun delay ranges =>
      Steps.one (Step.say delay ranges)
    split
    · exact ((hfirst _ _).trans (hsay _ _ _ rfl)).trans (hsay _ _ _ rfl)
    · exact hfirst _ _

theorem sendProbe_purse (input : Option Packet) (s : UdpStream) (now : ℚ) :
    Steps input s.purse (s.sendProbe now).purse := by
  unfold sendProbe
  dsimp only
  split
  · exact .refl
  · split
    · exact .refl
    · exact Steps.one (Step.probe s.tx.nextPn)

theorem startProbe_purse (input : Option Packet) (s : UdpStream) (now : ℚ) :
    Steps input s.purse (s.startProbe now).purse :=
  sendProbe_purse input { s with tx := { s.tx with probes := [] } } now

theorem probeAcked_purse (input : Option Packet) (s : UdpStream) (ranges : List (Nat × Nat)) :
    Steps input s.purse (s.probeAcked ranges).purse := by
  unfold probeAcked
  split
  · exact Steps.one (Step.resize maxPacket (.inr rfl))
  · exact .refl

theorem handOver_purse (s : UdpStream) : Steps none s.purse s.handOver.purse := by
  unfold handOver
  split
  · have hlen : (s.rx.held.take (min s.rx.held.bytes maxRead)).1.length = min s.rx.held.bytes maxRead := by
      rw [Pieces.take_fst, List.length_take]
      exact Nat.min_eq_left (Nat.min_le_left _ _)
    dsimp only
    rw [hlen]
    exact Steps.one (Step.hand (min s.rx.held.bytes maxRead) rfl (Nat.min_le_left _ _))
  · exact .refl

theorem grant_purse (s : UdpStream) (now : ℚ) : Steps none s.purse (s.grant now).purse := by
  unfold grant
  split
  · dsimp only
    split
    · exact Steps.one (Step.double rfl)
    · exact .refl
  · exact .refl

theorem deliver_purse (s : UdpStream) (now : ℚ) : Steps none s.purse (s.deliver now).purse := by
  have hgrant := (handOver_purse s).trans (grant_purse s.handOver now)
  unfold deliver
  dsimp only
  split
  · exact hgrant.trans (sendAck_purse none _ now)
  · exact hgrant

theorem turn_purse (s : UdpStream) (now : ℚ) : Steps none s.purse (s.turn now).purse := by
  have h := deliver_purse { s with rx := { s.rx with turnDue := false } } now
  unfold turn
  dsimp only
  split
  · exact Relation.ReflTransGen.trans h (sendAck_purse none _ now)
  · exact h

theorem received_purse (input : Option Packet) (s : UdpStream) (now : ℚ) (pn : Nat) :
    Steps input s.purse (s.received now pn).purse := by
  unfold received
  dsimp only
  split
  · exact sendAck_purse input { s with rx := { s.rx with ranges := record s.rx.ranges pn, largestAt := _ } } now
  · exact .refl

/-- The purse of `s` with its receiving half replaced. -/
def shelfPurse (s : UdpStream) (rx : Receiving) : Purse := { s with rx := rx }.purse

theorem drainAhead_purse (input : Option Packet) (s : UdpStream) (n : Nat) (rx : Receiving) :
    Steps input (s.shelfPurse rx) (s.shelfPurse (rx.drainAhead n)) := by
  induction n generalizing rx with
  | zero => exact .refl
  | succ n ih =>
    unfold Receiving.drainAhead
    split
    · exact .refl
    · rename_i next hnext
      refine Relation.ReflTransGen.trans ?_ (ih _)
      exact Steps.one (Step.drain next hnext)

theorem store_purse (s : UdpStream) (rx : Receiving) (pn o floor : Nat) (bs : Bytes)
    (hcredit : o + bs.length ≤ rx.taken + rx.credit) (hq : rx.ahead.get rx.inOrder = none) :
    Steps (some (.data pn o floor bs)) (s.shelfPurse rx) (s.shelfPurse (rx.store o bs)) := by
  unfold Receiving.store
  dsimp only
  split
  · rename_i ho
    have harr : Steps (some (.data pn o floor bs)) (s.shelfPurse rx) (s.shelfPurse
        { rx with furthest := max rx.furthest (o + bs.length), held := rx.held.push bs }) :=
      Steps.one (Step.arriveInOrder pn o floor bs rfl hcredit ho (ho ▸ hq))
    have hdrain := harr.trans (drainAhead_purse _ s rx.ahead.size _)
    split
    · exact hdrain.trans (Steps.one Step.clear)
    · exact hdrain
  · split
    · rename_i h
      refine Steps.one (Step.arriveAhead pn o floor bs rfl hcredit h.1 ?_)
      change rx.ahead.get o = none
      rw [OrdMap.get_eq_none]
      simpa [OrdMap.has] using h.2
    · exact Steps.one (Step.arriveStale pn o floor bs rfl hcredit)

theorem received_rx (s : UdpStream) (now : ℚ) (pn : Nat) :
    (s.received now pn).rx.taken = s.rx.taken ∧ (s.received now pn).rx.credit = s.rx.credit ∧
      (s.received now pn).rx.held = s.rx.held ∧ (s.received now pn).rx.ahead = s.rx.ahead := by
  unfold received sendAck
  dsimp only [queueTurn]
  split
  · split
    · exact ⟨rfl, rfl, rfl, rfl⟩
    · split <;> exact ⟨rfl, rfl, rfl, rfl⟩
  · exact ⟨rfl, rfl, rfl, rfl⟩

theorem onChunk_purse (s : UdpStream) (now : ℚ) (pn o floor : Nat) (bs : Bytes)
    (hq : s.rx.ahead.get s.rx.inOrder = none) :
    Steps (some (.data pn o floor bs)) s.purse (s.onChunk now pn o floor bs).purse := by
  unfold onChunk
  split
  · exact .refl
  · rename_i hcredit
    obtain ⟨htaken, hcr, hheld, hahead⟩ := received_rx s now pn
    have hreceived := received_purse (some (.data pn o floor bs)) s now pn
    dsimp only
    generalize s.received now pn = s₁ at htaken hcr hheld hahead hreceived ⊢
    have hstore := store_purse s₁ { s₁.rx with ranges := dropBelow floor s₁.rx.ranges } pn o floor bs (by
      change o + bs.length ≤ s₁.rx.taken + s₁.rx.credit
      rw [htaken, hcr]
      exact Nat.le_of_not_lt hcredit) (by
      change s₁.rx.ahead.get (s₁.rx.taken + s₁.rx.held.bytes) = none
      rw [hahead, htaken, hheld]
      exact hq)
    have hall : Steps (some (.data pn o floor bs)) s.purse
        (s₁.shelfPurse ({ s₁.rx with ranges := dropBelow floor s₁.rx.ranges }.store o bs)) :=
      hreceived.trans hstore
    split
    · rename_i hover
      unfold fail
      split
      · exact hall
      · refine hall.trans (Steps.one (Step.overflow pn o floor bs rfl ?_))
        simpa [Receiving.overflows, Purse.Overflows, shelfPurse, purse] using hover
    · exact hall

theorem onRanges_purse (input : Option Packet) (s : UdpStream) (now : ℚ) (delay : Nat) (first : Nat × Nat)
    (ranges : List (Nat × Nat)) : Steps input s.purse (s.onRanges now delay first ranges).purse := by
  unfold onRanges
  extract_lets largest newest s₁ s₂ tx₁ tx₂ tx₃ s₃
  have h₁ : Steps input s.purse s₁.purse :=
    Sending.ackRanges_purse input s largest ranges ((s.tx, none), none)
  have h₂ : Steps input s₁.purse s₂.purse := by
    simp only [s₂]
    split
    · exact probeAcked_purse _ s₁ ranges
    · exact .refl
  have h₃ : s₂.purseOf tx₂ = s₂.purse := Sending.clearSuspects_purse s₂ s₂.tx ranges
  have h₄ : s₂.purseOf tx₃ = s₂.purseOf tx₂ := by
    simp only [tx₃]
    clear_value newest
    split
    · exact Sending.sample_purse _ _ _ _
    · rfl
  have h₅ : s₃.purse = s₂.purseOf tx₃ := Sending.detectLoss_purse s₂ tx₃ now
  have hall : Steps input s.purse s₃.purse := by
    rw [h₅, h₄, h₃]
    exact h₁.trans h₂
  split
  · exact hall.trans (startProbe_purse input { s₃ with tx := { s₃.tx with reprobe := false } } now)
  · exact hall

theorem buffered_purse (s : UdpStream) : s.purseOf s.tx.buffered.1 = s.purse :=
  Sending.oldestChunk_purse s s.tx

theorem afterAck_purse (input : Option Packet) (s : UdpStream) (now : ℚ) (hl : s.ledger.TxFair) :
    Steps input s.purse (s.afterAck now).purse := by
  unfold afterAck
  split
  · extract_lets left s₁
    have h₁ : s₁.purse = s.purse := buffered_purse s
    have hl₁ : s₁.ledger.TxFair := hl.steps (buffered_steps input s hl)
    rw [← h₁]
    split
    · exact endStream_purse input s₁ now .drained (by simp)
    · exact flush_purse input s₁ now 0 hl₁
  · exact flush_purse input s now 0 hl

theorem onAck_purse (s : UdpStream) (hg : s.gone = false) (now : ℚ) (credit delay : Nat)
    (ranges : List (Nat × Nat)) (hl : s.ledger.TxFair) :
    Steps (some (.ack credit delay ranges)) s.purse (s.onAck now credit delay ranges).purse := by
  have hcredit : Steps (some (.ack credit delay ranges)) s.purse (s.credited credit).purse :=
    Steps.one (Step.credited credit delay ranges rfl)
  unfold onAck
  split
  · exact hcredit.trans (afterAck_purse _ (s.credited credit) now hl)
  · rename_i first rest
    have hfair : ((s.credited credit).onRanges now delay first (first :: rest)).ledger.TxFair :=
      hl.steps (@onRanges_steps credit delay (first :: rest) (s.credited credit) hg now first)
    exact (hcredit.trans (onRanges_purse _ _ now delay first _)).trans (afterAck_purse _ _ now hfair)

theorem start_purse (input : Option Packet) (s : UdpStream) (now : ℚ) (hl : s.ledger.TxFair) :
    Steps input s.purse (s.start now).purse := by
  unfold start
  split
  · exact .refl
  · extract_lets s₁ s₂ s₃
    have h₂ : Steps input s.purse s₂.purse := by
      have h₁ : s₁.purse = s.purse := rfl
      rw [← h₁]
      simp only [s₂]
      split
      · exact sendAck_purse input s₁ now
      · exact .refl
    have hl₂ : s₂.ledger.TxFair := by
      have h₁ : s₁.ledger = s.ledger := rfl
      simp only [s₂]
      split
      · exact (h₁ ▸ hl).steps (sendAck_steps input s₁ now)
      · exact h₁ ▸ hl
    exact h₂.trans (flush_purse input s₂ now 0 hl₂)

theorem repath_purse (input : Option Packet) (s : UdpStream) (now rttMs : ℚ) (hl : s.ledger.TxFair) :
    Steps input s.purse (s.repath now rttMs).purse := by
  unfold repath
  split
  · exact .refl
  · have h₁ : Steps input s.purse ({ s with tx := s.tx.rerouted now rttMs } : UdpStream).purse := by
      change Steps input s.purse (s.purseOf (s.tx.rerouted now rttMs))
      rw [Sending.rerouted_purse]
      exact Steps.one (Step.resize basePacket (.inl rfl))
    have hl₁ := (hl.steps (Sending.rerouted_steps input s s.tx now rttMs)).steps (sendAck_steps input _ now)
    exact ((h₁.trans (sendAck_purse input _ now)).trans (flush_purse input _ now 0 hl₁)).trans
      (startProbe_purse input _ now)

theorem send_purse (s : UdpStream) (now : ℚ) (bytes : Bytes) (hl : s.ledger.TxFair) :
    Steps none s.purse (s.send now bytes).1.purse := by
  unfold send
  split
  · exact .refl
  · rename_i hopen
    extract_lets left s₁ src s₂
    have hg : s.gone = false := by simpa using fun h => hopen (Or.inl h)
    have h₁ : s₁.purse = s.purse := buffered_purse s
    have hl₁ : s₁.ledger.TxFair := hl.steps (buffered_steps none s hl)
    rw [← h₁]
    split
    · exact .refl
    · split
      · exact .refl
      · exact flush_purse none s₂ now 0 (hl₁.steps (Ledger.Steps.one (Ledger.Step.accept bytes rfl hg)))

theorem close_purse (input : Option Packet) (s : UdpStream) (now : ℚ) (graceful : Bool) :
    Steps input s.purse (s.close now graceful).purse := by
  unfold close
  split
  · exact .refl
  · split
    · extract_lets left s₁
      have h₁ : s₁.purse = s.purse := buffered_purse s
      rw [← h₁]
      split
      · exact .refl
      · exact endStream_purse input s₁ now .drained (by simp)
    · exact endStream_purse input s now .cut (by simp)

theorem tick_purse (input : Option Packet) (s : UdpStream) (now t : ℚ) :
    Steps input s.purse (s.tick now t).purse := by
  unfold tick
  split
  · exact fail_purse input s .silent (by simp)
  · split
    · exact endStream_purse input s now .peerGone (by simp)
    · extract_lets s₁
      change Steps input s.purse s₁.purse
      simp only [s₁]
      split
      · exact sendAck_purse input s now
      · exact .refl

theorem onRecovery_purse (input : Option Packet) (s : UdpStream) (now t : ℚ) (hl : s.ledger.TxFair) :
    Steps input s.purse (s.onRecovery now t).purse := by
  unfold onRecovery
  extract_lets s₁
  have h₁ : s₁.purse = s.purse := rfl
  have hl₁ : s₁.ledger.TxFair := hl
  rw [← h₁]
  split
  · exact .refl
  · split
    · rw [arm_purse]
    · split
      · have h₂ : ({ s₁ with tx := s₁.tx.detectLoss t } : UdpStream).purse = s₁.purse :=
          Sending.detectLoss_purse s₁ s₁.tx t
        rw [← h₂]
        exact flush_purse input _ now 0 (hl₁.steps (Sending.detectLoss_steps input s₁ s₁.tx t))
      · split
        · exact endStream_purse input s₁ now .peerGone (by simp)
        · exact Relation.ReflTransGen.trans (Sending.timeout_purse input s₁ s₁.tx)
            (flush_purse input _ now 2 (hl₁.steps (Sending.timeout_steps input s₁ s₁.tx)))

theorem onWake_purse (input : Option Packet) (s : UdpStream) (now t : ℚ) (hl : s.ledger.TxFair) :
    Steps input s.purse (s.onWake now t).purse := by
  unfold onWake
  split
  · exact .refl
  · split
    · exact endStream_purse input s now .linger (by simp)
    · extract_lets s₁ s₂
      have h₁ : Steps input s.purse s₁.purse := by
        simp only [s₁]
        split
        · exact tick_purse input s now t
        · exact .refl
      have hl₁ : s₁.ledger.TxFair := by
        simp only [s₁]
        split
        · exact hl.steps (tick_steps input s now t)
        · exact hl
      have h₂ : Steps input s₁.purse s₂.purse := by
        simp only [s₂]
        split
        · exact onRecovery_purse input s₁ now t hl₁
        · exact .refl
      split
      · exact (h₁.trans h₂).trans (sendProbe_purse input s₂ now)
      · exact h₁.trans h₂

theorem call_purse (s : UdpStream) (now : ℚ) (c : Call) (hl : s.ledger.TxFair) :
    Steps none s.purse (s.call now c).purse := by
  cases c with
  | start => exact start_purse none s now hl
  | send bytes => exact send_purse s now bytes hl
  | reader => exact deliver_purse { s with read := true } now
  | readDone => exact deliver_purse { s with reading := false } now
  | turn => exact turn_purse s now
  | wake t => exact onWake_purse none s now t hl
  | repath rttMs => exact repath_purse none s now rttMs hl
  | close graceful => exact close_purse none s now graceful
  | cut => exact endStream_purse none s now .cut (by simp)

theorem receive_purse (s : UdpStream) (now : ℚ) (p : Bytes) (hl : s.ledger.TxFair)
    (hq : s.rx.ahead.get s.rx.inOrder = none) :
    Steps (decode p) s.purse (s.receive now p).purse := by
  unfold receive
  split
  · exact .refl
  · rename_i hgone
    extract_lets s₁
    have h₁ : s₁.purse = s.purse := rfl
    have hg : s₁.gone = false := by simpa [s₁] using hgone
    rw [← h₁]
    split
    · rename_i pn offset floor bytes hd
      rw [hd]
      exact onChunk_purse s₁ now pn offset floor bytes hq
    · rename_i credit delay ranges hd
      rw [hd]
      exact onAck_purse s₁ hg now credit delay ranges hl
    · rename_i pn hd
      rw [hd]
      exact received_purse _ s₁ now pn
    · rename_i hd
      rw [hd]
      exact fail_purse _ s₁ .closeHeard (by simp)
    · exact .refl

end UdpStream

end SeedTransport.Stream
