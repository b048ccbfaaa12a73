import Mathlib
import SeedTransport.Stream.Purse

set_option autoImplicit false

namespace SeedTransport.Stream

/-! Flow control between two honest ends: what the sender may send never passes what the
receiver takes. -/

/-- The credit an ack advertises. -/
def Packet.credit? : Packet → Option Nat
  | .ack credit _ _ => some credit
  | _ => none

namespace Purse

/-- The credits advertised, first to last. -/
def credits (p : Purse) : List Nat := p.emitted.filterMap Packet.credit?

/-- The longest chunk a packet carries. -/
def maxChunk : Nat := maxPacket - dataHeader

/-- What a credit kept rightly comes to, whatever the peer sends. -/
structure Fair (p : Purse) : Prop where
  sized : Ledger.Sized p.packetBytes
  within : p.nextOffset ≤ p.peerCredit
  chunk : ∀ o c, p.chunks.get o = some c → o + c.length ≤ p.nextOffset ∧ c.length ≤ maxChunk
  sent : ∀ pn o floor bs, .data pn o floor bs ∈ p.emitted → o + bs.length ≤ p.nextOffset ∧ bs.length ≤ maxChunk
  most : p.credit ≤ maxCredit
  far : p.furthest ≤ p.taken + p.credit
  held : p.inOrder ≤ p.furthest
  ahead : ∀ o bs, p.ahead.get o = some bs → o + bs.length ≤ p.furthest
  advertised : p.advertised ≤ p.taken + p.credit
  acks : ∀ c ∈ p.credits, c ≤ p.advertised
  sorted : p.credits.Pairwise (· ≤ ·)

theorem Fair.init : Fair ({} : UdpStream).purse := by
  refine ⟨.inl rfl, Nat.zero_le _, ?_, ?_, ?_, Nat.zero_le _, Nat.le_refl _, ?_, ?_, ?_, List.Pairwise.nil⟩
  · intro o c hc
    cases hc
  · intro pn o floor bs h
    cases h
  · decide
  · intro o bs h
    cases h
  · decide
  · intro c hc
    cases hc

/-- Only chunks change, and packets with no credit go out. -/
theorem credits_append (emitted : List Packet) {q : Packet} (hq : q.credit? = none) :
    (emitted ++ [q]).filterMap Packet.credit? = emitted.filterMap Packet.credit? := by
  simp [List.filterMap_append, hq]

variable {input : Option Packet} {p p' : Purse}

theorem Fair.split (h : Fair p) {o : Nat} {c : Bytes} (hc : p.chunks.get o = some c) (m : Nat)
    (hlt : m < c.length) : ∀ o' c', ((p.chunks.set o (c.take m)).set (o + m) (c.drop m)).get o' = some c' →
      o' + c'.length ≤ p.nextOffset ∧ c'.length ≤ maxChunk := by
  obtain ⟨hend, hlen⟩ := h.chunk o c hc
  intro o' c' hc'
  rcases Ledger.TxFair.get_split hc' with ⟨rfl, rfl⟩ | ⟨rfl, rfl⟩ | hc'
  · rw [List.length_drop]
    omega
  · rw [List.length_take]
    omega
  · exact h.chunk o' c' hc'

theorem Fair.cut (h : Fair p) {c : Bytes} (hroom : c.length ≤ p.packetBytes - dataHeader) :
    ∀ o' c', (p.chunks.set p.nextOffset c).get o' = some c' →
      o' + c'.length ≤ p.nextOffset + c.length ∧ c'.length ≤ maxChunk := by
  have hmax : p.packetBytes - dataHeader ≤ maxChunk := by
    rcases h.sized with hs | hs <;> rw [hs] <;> decide
  intro o' c' hc'
  rw [OrdMap.get_set] at hc'
  split at hc'
  · rename_i ho
    obtain rfl := Option.some.inj hc'
    omega
  · have := h.chunk o' c' hc'
    omega

/-- What goes out and is no DATA packet leaves what was sent. -/
theorem Fair.sent_append (h : Fair p) {q : Packet} (hq : ∀ pn o floor bs, q ≠ .data pn o floor bs) :
    ∀ pn o floor bs, .data pn o floor bs ∈ p.emitted ++ [q] →
      o + bs.length ≤ p.nextOffset ∧ bs.length ≤ maxChunk := by
  intro pn o floor bs hm
  rcases List.mem_append.1 hm with hm | hm
  · exact h.sent pn o floor bs hm
  · exact absurd (List.mem_singleton.1 hm).symm (hq pn o floor bs)

/-- No step spoils the credit. -/
theorem Fair.step (h : Fair p) (hs : Step input p p') : Fair p' := by
  cases hs with
  | resize n hn => exact { h with sized := hn }
  | split o c hc hlt => exact { h with chunk := h.split hc _ hlt }
  | cut c h0 hroom hcredit =>
    refine { h with within := hcredit, chunk := h.cut hroom, sent := ?_ }
    intro pn o floor bs hm
    have := h.sent pn o floor bs hm
    exact ⟨by simp only; omega, this.2⟩
  | transmit pn o floor c hc =>
    refine { h with sent := ?_, acks := ?_, sorted := ?_ }
    · intro pn' o' floor' bs hm
      rcases List.mem_append.1 hm with hm | hm
      · exact h.sent pn' o' floor' bs hm
      · cases List.mem_singleton.1 hm
        exact h.chunk o c hc
    · simp only [credits]
      rw [credits_append _ rfl]
      exact h.acks
    · simp only [credits]
      rw [credits_append _ rfl]
      exact h.sorted
  | acked o =>
    refine { h with chunk := ?_ }
    intro o' c hc
    simp only [OrdMap.get_delete] at hc
    split at hc
    · cases hc
    · exact h.chunk o' c hc
  | credited credit delay ranges hi => exact { h with within := h.within.trans (le_max_left _ _) }
  | say delay ranges =>
    have hcr : (p.emitted ++ [Packet.ack (p.taken + p.credit) delay ranges]).filterMap Packet.credit? =
        p.credits ++ [p.taken + p.credit] := by
      simp [List.filterMap_append, Packet.credit?, credits]
    have hle : ∀ c ∈ p.credits, c ≤ p.taken + p.credit := fun c hc => (h.acks c hc).trans h.advertised
    refine { h with sent := h.sent_append (by simp), advertised := le_refl _, acks := ?_, sorted := ?_ }
    · intro c hc
      simp only [credits] at hc
      rw [hcr] at hc
      rcases List.mem_append.1 hc with hc | hc
      · exact hle c hc
      · exact le_of_eq (List.mem_singleton.1 hc)
    · simp only [credits]
      rw [hcr]
      exact List.pairwise_append.2 ⟨h.sorted, List.pairwise_singleton _ _, fun c hc c' hc' =>
        (List.mem_singleton.1 hc') ▸ hle c hc⟩
  | probe pn =>
    refine { h with sent := h.sent_append (by simp), acks := ?_, sorted := ?_ }
    · simp only [credits]
      rw [credits_append _ rfl]
      exact h.acks
    · simp only [credits]
      rw [credits_append _ rfl]
      exact h.sorted
  | close =>
    refine { h with sent := h.sent_append (by simp), acks := ?_, sorted := ?_ }
    · simp only [credits]
      rw [credits_append _ rfl]
      exact h.acks
    · simp only [credits]
      rw [credits_append _ rfl]
      exact h.sorted
  | stop why hw => exact { h with }
  | overflow pn o floor bs hi ho => exact { h with }
  | arriveInOrder pn o floor bs hi hcredit ho ha =>
    refine { h with far := max_le h.far hcredit, held := ?_, ahead := ?_ }
    · simp only [inOrder, Pieces.bytes_push] at ho ⊢
      omega
    · intro o' bs' ha
      exact (h.ahead o' bs' ha).trans (le_max_left _ _)
  | arriveAhead pn o floor bs hi hcredit ho ha =>
    refine { h with far := max_le h.far hcredit, held := h.held.trans (le_max_left _ _), ahead := ?_ }
    intro o' bs' ha'
    simp only [OrdMap.get_set] at ha'
    split at ha'
    · rename_i hoo
      obtain rfl := Option.some.inj ha'
      simp [hoo]
    · exact (h.ahead o' bs' ha').trans (le_max_left _ _)
  | arriveStale pn o floor bs hi hcredit =>
    refine { h with far := max_le h.far hcredit, held := h.held.trans (le_max_left _ _), ahead := ?_ }
    intro o' bs' ha'
    exact (h.ahead o' bs' ha').trans (le_max_left _ _)
  | drain next ha =>
    have hend := h.ahead _ _ ha
    refine { h with held := ?_, ahead := ?_ }
    · simp only [inOrder, Pieces.bytes_push] at hend ⊢
      omega
    · intro o' bs' ha'
      simp only [OrdMap.get_delete] at ha'
      split at ha'
      · cases ha'
      · exact h.ahead o' bs' ha'
  | clear =>
    refine { h with ahead := ?_ }
    intro o bs ha
    simp at ha
  | hand n hi hn =>
    have hfar := h.far
    have hheld := h.held
    have hadv := h.advertised
    refine { h with far := ?_, held := ?_, advertised := ?_ }
    · simp only
      omega
    · simp only [inOrder, Pieces.bytes_take] at hheld ⊢
      omega
    · simp only
      omega
  | double hi =>
    have hmost := h.most
    have hfar := h.far
    have hadv := h.advertised
    refine { h with most := min_le_right _ _, far := ?_, advertised := ?_ }
    · simp only
      omega
    · simp only
      omega

theorem Fair.steps (h : Fair p) (hs : Steps input p p') : Fair p' := by
  induction hs with
  | refl => exact h
  | tail _ hstep ih => exact ih.step hstep

/-- What never goes back. -/
structure Grows (p p' : Purse) : Prop where
  taken : p.taken ≤ p'.taken
  credit : ∃ k, p'.credit = min (2 ^ k * p.credit) maxCredit
  advertised : p.advertised ≤ p'.advertised
  emitted : p.emitted <+: p'.emitted

theorem Grows.refl (h : Fair p) : Grows p p :=
  ⟨le_refl _, ⟨0, by rw [pow_zero, one_mul]; exact (min_eq_left h.most).symm⟩, le_refl _, List.prefix_refl _⟩

theorem Grows.trans {q : Purse} (h : Grows p p') (h' : Grows p' q) : Grows p q := by
  obtain ⟨k, hk⟩ := h.credit
  obtain ⟨j, hj⟩ := h'.credit
  refine ⟨h.taken.trans h'.taken, ⟨j + k, ?_⟩, h.advertised.trans h'.advertised, h.emitted.trans h'.emitted⟩
  have hpos : 1 ≤ 2 ^ j := Nat.one_le_two_pow
  rw [hj, hk, pow_add, mul_assoc]
  generalize 2 ^ k * p.credit = a
  rcases Nat.le_total a maxCredit with ha | ha
  · rw [min_eq_left ha]
  · have hbig : maxCredit ≤ 2 ^ j * a := by nlinarith
    have hbig' : maxCredit ≤ 2 ^ j * maxCredit := by nlinarith
    rw [min_eq_right ha, min_eq_right hbig, min_eq_right hbig']

theorem Grows.step (h : Fair p) (hs : Step input p p') : Grows p p' := by
  have hself := Grows.refl h
  cases hs with
  | transmit => exact { hself with emitted := List.prefix_append _ _ }
  | say => exact { hself with advertised := h.advertised, emitted := List.prefix_append _ _ }
  | probe => exact { hself with emitted := List.prefix_append _ _ }
  | close => exact { hself with emitted := List.prefix_append _ _ }
  | hand n hi hn => exact { hself with taken := Nat.le_add_right _ _ }
  | double hi => exact { hself with credit := ⟨1, by simp⟩ }
  | resize | split | cut | acked | credited | stop | overflow | arriveInOrder | arriveAhead | arriveStale
    | drain | clear => exact { hself with }

theorem Grows.steps (h : Fair p) (hs : Steps input p p') : Grows p p' := by
  induction hs with
  | refl => exact Grows.refl h
  | tail hrun hstep ih => exact ih.trans (Grows.step (h.steps hrun) hstep)

theorem Grows.credit_le (h : Grows p p') (hp : p.credit ≤ maxCredit) : p.credit ≤ p'.credit := by
  obtain ⟨k, hk⟩ := h.credit
  have hpos : 1 ≤ 2 ^ k := Nat.one_le_two_pow
  rw [hk]
  exact le_min (by nlinarith) hp

/-- The peer's credit is raised by its acks only. -/
theorem Steps.peerCredit_le {bound : Nat} (hs : Steps input p p')
    (hi : ∀ credit delay ranges, input = some (.ack credit delay ranges) → credit ≤ bound)
    (hp : p.peerCredit ≤ bound) : p'.peerCredit ≤ bound := by
  induction hs with
  | refl => exact hp
  | tail _ hstep ih =>
    cases hstep with
    | credited credit delay ranges he => exact max_le ih (hi credit delay ranges he)
    | resize | split | cut | transmit | acked | say | probe | close | stop | overflow | arriveInOrder
      | arriveAhead | arriveStale | drain | clear | hand | double => exact ih

end Purse

namespace Net

/-- One step of the network, at the end that takes it: a packet read is one the other end
sent. -/
theorem Step.purse {N M : Net} (hN : Reachable N) (h : Step N M) :
    (∃ input, Purse.Steps input N.a.purse M.a.purse ∧ M.b = N.b ∧
      ∀ q, input = some q → ∃ p ∈ N.b.emitted, q = p.cut) ∨
    (∃ input, Purse.Steps input N.b.purse M.b.purse ∧ M.a = N.a ∧
      ∀ q, input = some q → ∃ p ∈ N.a.emitted, q = p.cut) := by
  obtain ⟨ha, hb⟩ := hN.sane
  cases h with
  | callA now c => exact .inl ⟨none, N.a.call_purse now c ha.fair.tx, rfl, fun _ h => nomatch h⟩
  | callB now c => exact .inr ⟨none, N.b.call_purse now c hb.fair.tx, rfl, fun _ h => nomatch h⟩
  | deliverA now token p hp ht =>
    have hdec := decode_stamp_encode token ht p (hb.fair.wire.sendable p hp)
    refine .inl ⟨_, N.a.receive_purse now (stamp token (encode p)) ha.fair.tx ha.quiet, rfl, fun q hq => ⟨p, hp, ?_⟩⟩
    rw [hdec] at hq
    exact (Option.some.inj hq).symm
  | deliverB now token p hp ht =>
    have hdec := decode_stamp_encode token ht p (ha.fair.wire.sendable p hp)
    refine .inr ⟨_, N.b.receive_purse now (stamp token (encode p)) hb.fair.tx hb.quiet, rfl, fun q hq => ⟨p, hp, ?_⟩⟩
    rw [hdec] at hq
    exact (Option.some.inj hq).symm

theorem Reachable.fair {N : Net} (h : Reachable N) : N.a.purse.Fair ∧ N.b.purse.Fair := by
  induction h with
  | refl => exact ⟨Purse.Fair.init, Purse.Fair.init⟩
  | tail hN hstep ih =>
    rcases hstep.purse hN with ⟨input, hs, hb, -⟩ | ⟨input, hs, ha, -⟩
    · exact ⟨ih.1.steps hs, hb ▸ ih.2⟩
    · exact ⟨ha ▸ ih.1, ih.2.steps hs⟩

/-- The credit a sender has is one its peer gave it. -/
theorem Reachable.peerCredit_le {N : Net} (h : Reachable N) :
    N.a.tx.peerCredit ≤ N.b.rx.taken + N.b.rx.credit := by
  induction h with
  | refl => decide
  | tail hN hstep ih =>
    rename_i N M
    obtain ⟨-, hb⟩ := Reachable.fair hN
    rcases hstep.purse hN with ⟨input, hs, hM, hi⟩ | ⟨input, hs, hM, -⟩
    · rw [hM]
      refine hs.peerCredit_le (p := N.a.purse) ?_ ih
      intro credit delay ranges he
      obtain ⟨q, hq, hcut⟩ := hi _ he
      obtain ⟨credit', delay', ranges', rfl, -⟩ := cut_eq_ack hcut.symm
      have hcr : credit = credit' % 2 ^ 48 := by
        simp only [Packet.cut, Packet.ack.injEq] at hcut
        exact hcut.1
      have hle : credit' ≤ N.b.rx.advertised := hb.acks credit'
        (List.mem_filterMap.2 ⟨_, hq, rfl⟩)
      have hadv : N.b.rx.advertised ≤ N.b.rx.taken + N.b.rx.credit := hb.advertised
      rw [hcr]
      exact (Nat.mod_le _ _).trans (hle.trans hadv)
    · have hgrow := Purse.Grows.steps hb hs
      have htaken : N.b.rx.taken ≤ M.b.rx.taken := hgrow.taken
      have hcredit : N.b.rx.credit ≤ M.b.rx.credit := hgrow.credit_le hb.most
      rw [hM]
      omega

/-- Flow control between honest ends: the sender's credit is within what the receiver takes,
so no packet it ever sent is past the receiver's credit, however late; what the receiver holds
is within its credit, which only doubles, up to `maxCredit`; and what it advertises never goes
down. -/
theorem credit_kept {N M : Net} (h : Reachable N) (hs : Step N M) :
    N.a.tx.peerCredit ≤ N.b.rx.taken + N.b.rx.credit ∧
    (∀ p ∈ N.a.emitted, ∀ token : Bytes, token.length = 8 → ∀ pn o floor bs,
      decode (stamp token (encode p)) = some (.data pn o floor bs) →
        o + bs.length ≤ N.b.rx.taken + N.b.rx.credit) ∧
    N.b.rx.held.bytes ≤ N.b.rx.credit ∧ N.b.rx.credit ≤ maxCredit ∧
    (∃ k, M.b.rx.credit = min (2 ^ k * N.b.rx.credit) maxCredit) ∧
    N.b.rx.advertised ≤ M.b.rx.advertised ∧
    (N.b.emitted.filterMap Packet.credit?).Pairwise (· ≤ ·) := by
  obtain ⟨ha, hb⟩ := h.fair
  have hpeer := h.peerCredit_le
  have hgrow : Purse.Grows N.b.purse M.b.purse := by
    rcases hs.purse h with ⟨input, -, hM, -⟩ | ⟨input, hsteps, -, -⟩
    · rw [hM]
      exact Purse.Grows.refl hb
    · exact Purse.Grows.steps hb hsteps
  refine ⟨hpeer, ?_, ?_, hb.most, hgrow.credit, hgrow.advertised, hb.sorted⟩
  · intro p hp token ht pn o floor bs hd
    rw [decode_stamp_encode token ht p (h.sane.1.fair.wire.sendable p hp)] at hd
    obtain ⟨pn', o', floor', rfl, -, rfl⟩ := cut_eq_data (Option.some.inj hd)
    have hend : o' + bs.length ≤ N.a.tx.nextOffset := (ha.sent pn' o' floor' bs hp).1
    have hwithin : N.a.tx.nextOffset ≤ N.a.tx.peerCredit := ha.within
    have hmod := Nat.mod_le o' (2 ^ 48)
    omega
  · have hheld : N.b.rx.taken + N.b.rx.held.bytes ≤ N.b.rx.furthest := hb.held
    have hfar : N.b.rx.furthest ≤ N.b.rx.taken + N.b.rx.credit := hb.far
    omega

/-- Three bytes are sent and held, and then handed to the reader. -/
theorem credit_kept_handed :
    let N := ({} : Net).run [.callA 0 .start, .callB 0 .start, .callA 0 (.send [1, 2, 3]), .deliverB 0 0]
    let M : Net := { N with b := N.b.call 0 .reader }
    N.b.rx.held.bytes = 3 ∧ M.b.rx.taken = 3 ∧ N.a.tx.peerCredit ≤ N.b.rx.taken + N.b.rx.credit ∧
      N.b.rx.held.bytes ≤ N.b.rx.credit ∧ N.b.rx.advertised ≤ M.b.rx.advertised := by
  intro N M
  have h := credit_kept (N := N) (M := M) (Reachable.run .refl _) (.callB 0 .reader)
  exact ⟨by decide +kernel, by decide +kernel, h.1, h.2.2.1, h.2.2.2.2.2.1⟩

end Net

end SeedTransport.Stream
