import Mathlib
import SeedTransport.Stream.Acks

set_option autoImplicit false

namespace SeedTransport.Stream

/-! The books of a sender over whole runs, at rest and within each flush. -/

namespace Sending

theorem sendChunk_still (s : UdpStream) (now : ℚ) (o : Nat) (c : Bytes) :
    Still s.tx (s.sendChunk now o c).tx := ⟨rfl, rfl, rfl, rfl, rfl, rfl, id⟩

end Sending

namespace UdpStream

variable {s : UdpStream} {acked : List (Nat × Nat)}

theorem booked_frame {s' : UdpStream} (h : Booked s.tx acked) (hd : s'.desk = s.desk) :
    Booked s'.tx acked := by
  rw [tx_of_desk hd]
  exact h

theorem flushLoop_booked (now : ℚ) (n probes : Nat) (h : Booked s.tx acked) :
    Booked (flushLoop now n probes s).tx acked := by
  induction n generalizing probes s with
  | zero => exact h
  | succ n ih =>
    have hnext := h.nextChunk (decide (probes > 0))
    unfold flushLoop
    split
    · exact h.still ⟨rfl, rfl, rfl, rfl, rfl, rfl, id⟩
    · split
      · rename_i tx he
        rw [he] at hnext
        exact hnext.still ⟨rfl, rfl, rfl, rfl, rfl, rfl, id⟩
      · rename_i tx o he
        rw [he] at hnext
        exact ih _ (hnext.still (Sending.sendChunk_still { s with tx := tx } now o _))

theorem flush_booked (now : ℚ) (probes : Nat) (h : Booked s.tx acked) :
    Booked (s.flush now probes).tx acked := by
  unfold flush
  split
  · exact h
  · exact booked_frame (flushLoop_booked now _ probes h) (arm_desk _)

theorem sendProbe_still (s : UdpStream) (now : ℚ) : Sending.Still s.tx (s.sendProbe now).tx := by
  unfold sendProbe
  dsimp only
  split
  · exact Sending.Still.refl _
  · split <;> exact ⟨rfl, rfl, rfl, rfl, rfl, rfl, id⟩

theorem startProbe_still (s : UdpStream) (now : ℚ) : Sending.Still s.tx (s.startProbe now).tx :=
  have h := sendProbe_still { s with tx := { s.tx with probes := [] } } now
  ⟨h.chunks, h.sentOffsets, h.sentHead, h.nextOffset, h.written, h.unsent, h.sized⟩

theorem tookAcks_booked (h : Booked s.tx acked) (first : Nat × Nat) (rest : List (Nat × Nat)) :
    Booked (s.tookAcks first (first :: rest)).tx (acked ++ took s.tx (s.rangeLoop (first :: rest))) := by
  have h₁ : Booked (s.rangeLoop (first :: rest)) (acked ++ took s.tx (s.rangeLoop (first :: rest))) :=
    h.acks (Sending.ackNamed_acked _ _ _)
  unfold tookAcks probeAcked
  dsimp only
  split_ifs
  · exact h₁.still ⟨rfl, rfl, rfl, rfl, rfl, rfl, fun _ => Or.inr rfl⟩
  · exact h₁
  · exact h₁

theorem afterLoss_still (s : UdpStream) (now : ℚ) : Sending.Still s.tx (s.afterLoss now).tx := by
  unfold afterLoss
  split
  · have h := startProbe_still { s with tx := { s.tx with reprobe := false } } now
    exact ⟨h.chunks, h.sentOffsets, h.sentHead, h.nextOffset, h.written, h.unsent, h.sized⟩
  · exact Sending.Still.refl _

theorem onRanges_booked (h : Booked s.tx acked) (now : ℚ) (delay : Nat) (first : Nat × Nat)
    (rest : List (Nat × Nat)) : Booked (s.onRanges now delay first (first :: rest)).tx
      (acked ++ took s.tx (s.rangeLoop (first :: rest))) := by
  have h₁ := tookAcks_booked h first rest
  have h₂ : Booked (s.beforeLoss now delay first (first :: rest)) _ :=
    h₁.still (Sending.learns_still _ _ _ _ _ _)
  have h₃ := h₂.still (Sending.detectLoss_still _ now)
  rw [onRanges_eq]
  exact h₃.still (afterLoss_still { s.tookAcks first (first :: rest) with tx := _ } now)

theorem afterAck_booked (h : Booked s.tx acked) (now : ℚ) : Booked (s.afterAck now).tx acked := by
  unfold afterAck
  split
  · dsimp only
    split
    · exact booked_frame h.oldestChunk (endStream_desk _ _ _)
    · exact flush_booked now 0 h.oldestChunk
  · exact flush_booked now 0 h

/-- The ranges of the chunks that a packet, if it is an ACK, acks. -/
def ackedBy (s : UdpStream) (now : ℚ) (p : Bytes) : List (Nat × Nat) :=
  if s.gone then []
  else match decode p with
    | some (.ack credit _ ranges) =>
      took (s.heard now credit).tx ((s.heard now credit).rangeLoop ranges)
    | _ => []

/-- A chunk acks take out is one a packet they visit carried. -/
theorem ackPackets_offset (largest : Int) (pns : List Nat) (a : Sending × Option Flight) {o : Nat}
    {c : Bytes} (hc : a.1.chunks.get o = some c)
    (hnone : (pns.foldl (Sending.ackPacket largest) a).1.chunks.get o = none) :
    ∃ pn ∈ pns, ∃ f, a.1.inFlight.get pn = some f ∧ f.offset = o := by
  induction pns generalizing a with
  | nil =>
    rw [List.foldl_nil, hc] at hnone
    cases hnone
  | cons k pns ih =>
    have hstep : (∃ f, a.1.inFlight.get k = some f ∧ f.offset = o) ∨
        (Sending.ackPacket largest a k).1.chunks.get o = some c := by
      unfold Sending.ackPacket
      dsimp only
      split
      · exact Or.inr hc
      · rename_i f hf
        by_cases ho : f.offset = o
        · exact Or.inl ⟨f, hf, ho⟩
        · refine Or.inr ?_
          dsimp only
          rw [OrdMap.get_delete, if_neg (fun h => ho h.symm)]
          exact hc
    rcases hstep with ⟨f, hf, ho⟩ | hkept
    · exact ⟨k, List.mem_cons_self, f, hf, ho⟩
    · obtain ⟨pn, hpn, f, hf, ho⟩ := ih _ hkept hnone
      exact ⟨pn, List.mem_cons_of_mem _ hpn, f,
        (Sending.ackPacket_shrinks largest a k).inFlight pn f hf, ho⟩

/-- The ranges a packet acks are of chunks that packets in flight carried, which it names. -/
theorem ackedBy_named (s : UdpStream) (now : ℚ) (p : Bytes) : ∀ r ∈ s.ackedBy now p,
    ∃ credit delay ranges pn f, decode p = some (.ack credit delay ranges) ∧ names ranges pn = true ∧
      s.tx.inFlight.get pn = some f ∧ f.offset = r.1 := by
  intro r hr
  unfold ackedBy at hr
  split at hr
  · cases hr
  · split at hr
    · rename_i credit delay ranges hp
      obtain ⟨e, he, rfl⟩ := List.mem_map.mp hr
      obtain ⟨he, hgone⟩ := List.mem_filter.mp he
      have hc := (OrdMap.get_eq_some _ _ _).mpr he
      have hnone : ((s.heard now credit).rangeLoop ranges).chunks.get e.1 = none := by
        rw [Option.eq_none_iff_forall_ne_some]
        intro c' hc'
        have hhas := (OrdMap.has_iff _ _).mpr ⟨c', hc'⟩
        simp [hhas] at hgone
      cases ranges with
      | nil =>
        rw [show ((s.heard now credit).rangeLoop []).chunks.get e.1 = _ from hc] at hnone
        cases hnone
      | cons first rest =>
        unfold rangeLoop at hnone
        dsimp only at hnone
        rw [Sending.ackNamed_visits] at hnone
        obtain ⟨pn, hpn, f, hf, ho⟩ := ackPackets_offset _ _ ((s.heard now credit).tx, none) hc hnone
        exact ⟨credit, delay, first :: rest, pn, f, hp, (Sending.mem_visits hpn).1, hf, ho⟩
    · cases hr

theorem took_self (tx : Sending) : took tx tx = [] := by
  have hentries : (tx.chunks.restrict (fun o => !tx.chunks.has o)).entries = [] := by
    refine List.filter_eq_nil_iff.mpr fun e he => ?_
    have hhas : tx.chunks.has e.1 = true :=
      (OrdMap.has_iff _ _).mpr ⟨e.2, (OrdMap.get_eq_some _ _ _).mpr he⟩
    simp [hhas]
  unfold took spans
  rw [hentries]
  rfl

theorem receive_booked (h : Booked s.tx acked) (now : ℚ) (p : Bytes) :
    Booked (s.receive now p).tx (acked ++ s.ackedBy now p) := by
  have hheard : ({ s with lastHeard := now } : UdpStream).desk = s.desk := rfl
  unfold receive ackedBy
  by_cases hg : s.gone = true
  · rw [if_pos hg, if_pos hg, List.append_nil]
    exact h
  · rw [if_neg hg, if_neg hg]
    generalize decode p = packet
    have hnot : Booked s.tx (acked ++ []) := by
      rw [List.append_nil]
      exact h
    cases packet with
    | none => exact hnot
    | some packet =>
      cases packet with
      | data pn o floor bs => exact booked_frame hnot ((onChunk_desk _ _ _ _ _ _).trans hheard)
      | probe pn => exact booked_frame hnot ((received_desk _ _ _).trans hheard)
      | close => exact booked_frame hnot ((fail_desk _ _).trans hheard)
      | ack credit delay ranges =>
        have h₁ : Booked (s.heard now credit).tx acked := h.still ⟨rfl, rfl, rfl, rfl, rfl, rfl, id⟩
        dsimp only
        cases ranges with
        | nil =>
          rw [show (s.heard now credit).rangeLoop [] = (s.heard now credit).tx from rfl, took_self,
            List.append_nil]
          exact afterAck_booked h₁ now
        | cons first rest => exact afterAck_booked (onRanges_booked h₁ now delay first rest) now

theorem onRecovery_booked (h : Booked s.tx acked) (now t : ℚ) :
    Booked (s.onRecovery now t).tx acked := by
  have hlate : Booked ({ s with recoveryAt := ⊤ } : UdpStream).tx acked := h
  unfold onRecovery
  dsimp only
  split
  · exact h
  · split
    · exact booked_frame hlate (arm_desk _)
    · split
      · exact flush_booked now 0 (s := { s with recoveryAt := ⊤, tx := s.tx.detectLoss t })
          (h.still (Sending.detectLoss_still _ t))
      · split
        · exact booked_frame hlate (endStream_desk _ _ _)
        · exact flush_booked now 2 (s := { s with recoveryAt := ⊤, tx := s.tx.timeout })
            (h.still (Sending.timeout_still _))

theorem onWake_booked (h : Booked s.tx acked) (now t : ℚ) : Booked (s.onWake now t).tx acked := by
  unfold onWake
  split
  · exact h
  · split
    · exact booked_frame h (endStream_desk _ _ _)
    · dsimp only
      have h₁ : Booked (if (t : WithTop ℚ) ≥ s.liveAt then s.tick now t else s).tx acked := by
        split
        · exact booked_frame h (tick_desk _ _ _)
        · exact h
      generalize (if (t : WithTop ℚ) ≥ s.liveAt then s.tick now t else s) = s₁ at h₁ ⊢
      have h₂ : Booked (if ¬s₁.gone = true ∧ (t : WithTop ℚ) ≥ s₁.recoveryAt then
          s₁.onRecovery now t else s₁).tx acked := by
        split
        · exact onRecovery_booked h₁ now t
        · exact h₁
      generalize (if ¬s₁.gone = true ∧ (t : WithTop ℚ) ≥ s₁.recoveryAt then s₁.onRecovery now t
        else s₁) = s₂ at h₂ ⊢
      split
      · exact h₂.still (sendProbe_still s₂ now)
      · exact h₂

theorem start_booked (h : Booked s.tx acked) (now : ℚ) : Booked (s.start now).tx acked := by
  unfold start
  split
  · exact h
  · dsimp only
    have hflush : ∀ s₁ : UdpStream, Booked s₁.tx acked →
        Booked { (s₁.flush now 0).tx with reprobe := true } acked := fun s₁ h₁ =>
      (flush_booked now 0 h₁).still ⟨rfl, rfl, rfl, rfl, rfl, rfl, id⟩
    refine hflush _ ?_
    split
    · exact booked_frame h (sendAck_desk _ _)
    · exact h

theorem repath_booked (h : Booked s.tx acked) (now rttMs : ℚ) :
    Booked (s.repath now rttMs).tx acked := by
  unfold repath
  split
  · exact h
  · have h₁ := h.still (Sending.rerouted_still s.tx now rttMs)
    have h₂ := flush_booked now 0 (booked_frame (s := { s with tx := s.tx.rerouted now rttMs }) h₁
      (sendAck_desk _ now))
    exact h₂.still (startProbe_still _ now)

/-- What `send` adds to what is written is within what may be buffered. -/
theorem push_booked (h : Booked s.tx acked) (bytes : Bytes)
    (hfits : s.tx.buffered.2 + bytes.length ≤ maxBuffered) :
    Booked { s.tx.buffered.1 with
      unsent := s.tx.buffered.1.unsent.push bytes
      written := s.tx.buffered.1.written + bytes.length } acked := by
  have hold := h.oldestChunk
  obtain ⟨hleft, hle, -⟩ := h.list.buffered_eq
  obtain ⟨hleast, hnone⟩ := h.list.oldest_least
  have hnext := h.list.unsent
  have hcut := fun o c (hc : s.tx.chunks.get o = some c) => (h.list.chunk o c hc).2
  have hlist := hold.list
  have htiles := hold.tiles
  obtain ⟨offsets, head, he, -, -, -, -⟩ := Sending.oldestChunk_spec s.tx h.list.head
  unfold Sending.buffered at hfits hleft ⊢
  dsimp only at hfits hleft ⊢
  rw [he] at hlist htiles ⊢
  have hnextle : s.tx.written + bytes.length ≤ s.tx.nextOffset + maxBuffered := by
    cases ho : s.tx.oldestChunk.2 with
    | none =>
      rw [ho, Option.getD_none] at hfits hle
      omega
    | some o =>
      obtain ⟨⟨c, hc⟩, -⟩ := hleast o ho
      have := hcut o c hc
      rw [ho, Option.getD_some] at hfits hle
      omega
  refine ⟨⟨hlist.sorted, hlist.head, hlist.below, hlist.chunk, hlist.listed, hlist.spaced, ?_, ?_,
    hnextle, hlist.sized⟩, htiles⟩
  · show s.tx.nextOffset + (s.tx.unsent.push bytes).bytes = s.tx.written + bytes.length
    rw [Pieces.bytes_push]
    omega
  · intro o c hc
    show s.tx.written + bytes.length ≤ o + maxBuffered
    have hc : s.tx.chunks.get o = some c := hc
    cases ho : s.tx.oldestChunk.2 with
    | none =>
      rw [hnone ho o] at hc
      cases hc
    | some oldest =>
      have := (hleast oldest ho).2 o c hc
      rw [ho, Option.getD_some] at hfits hle
      omega

theorem send_booked (h : Booked s.tx acked) (now : ℚ) (bytes : Bytes) :
    Booked (s.send now bytes).1.tx acked := by
  have hpush := push_booked h bytes
  unfold send
  split
  · exact h
  · dsimp only
    split
    · exact h.oldestChunk
    · split
      · exact h.oldestChunk
      · rename_i hfits _
        exact flush_booked now 0 (hpush (by omega))

theorem close_booked (h : Booked s.tx acked) (now : ℚ) (graceful : Bool) :
    Booked (s.close now graceful).tx acked := by
  unfold close
  split
  · exact h
  · split
    · dsimp only
      split
      · exact h.oldestChunk
      · exact booked_frame h.oldestChunk (endStream_desk _ _ _)
    · exact booked_frame h (endStream_desk _ _ _)

theorem call_booked (h : Booked s.tx acked) (now : ℚ) (c : Call) : Booked (s.call now c).tx acked := by
  cases c with
  | start => exact start_booked h now
  | send bytes => exact send_booked h now bytes
  | reader => exact booked_frame h (deliver_desk { s with read := true } now)
  | readDone => exact booked_frame h (deliver_desk { s with reading := false } now)
  | turn => exact booked_frame h (turn_desk s now)
  | wake t => exact onWake_booked h now t
  | repath rttMs => exact repath_booked h now rttMs
  | close graceful => exact close_booked h now graceful
  | cut => exact booked_frame h (endStream_desk _ _ _)

end UdpStream

/-- A run of a stream, with the ranges of the chunks acked in it. -/
inductive Kept : UdpStream → List (Nat × Nat) → Prop where
  | new : Kept {} []
  | call {s : UdpStream} {acked : List (Nat × Nat)} (h : Kept s acked) (now : ℚ) (c : Call) :
      Kept (s.call now c) acked
  | receive {s : UdpStream} {acked : List (Nat × Nat)} (h : Kept s acked) (now : ℚ) (p : Bytes) :
      Kept (s.receive now p) (acked ++ s.ackedBy now p)

theorem Kept.run {s : UdpStream} {acked : List (Nat × Nat)} (h : Kept s acked) : Run s := by
  induction h with
  | new => exact Run.new
  | call _ now c ih => exact ih.call now c
  | receive _ now p ih => exact ih.receive now p

theorem Run.kept {s : UdpStream} (h : Run s) : ∃ acked, Kept s acked := by
  induction h with
  | new => exact ⟨[], Kept.new⟩
  | call _ now c ih =>
    obtain ⟨acked, ih⟩ := ih
    exact ⟨acked, ih.call now c⟩
  | receive _ now p ih =>
    obtain ⟨acked, ih⟩ := ih
    exact ⟨_, ih.receive now p⟩

theorem Booked.init : Booked ({} : UdpStream).tx [] where
  list := {
    sorted := List.Pairwise.nil
    head := Nat.le_refl _
    below := fun _ ho => (nomatch ho)
    chunk := fun _ _ hc => (nomatch hc)
    listed := fun _ _ hc => (nomatch hc)
    spaced := fun _ _ hc => (nomatch hc)
    unsent := rfl
    held := fun _ _ hc => (nomatch hc)
    kept := Nat.zero_le _
    sized := Or.inl rfl }
  tiles := fun _ => rfl

theorem Kept.booked {s : UdpStream} {acked : List (Nat × Nat)} (h : Kept s acked) :
    Booked s.tx acked := by
  induction h with
  | new => exact Booked.init
  | call _ now c ih => exact UdpStream.call_booked ih now c
  | receive _ now p ih => exact UdpStream.receive_booked ih now p

/-- The places an operation on `s` flushes at: the stream then, and how many packets past the
window it sends. -/
inductive Flushes (s : UdpStream) (now : ℚ) : UdpStream → Nat → Prop where
  | start (u : UdpStream) (hu : u = { s with
      out := true, lastHeard := now, lastSent := now,
      liveAt := ((now + keepaliveMs : ℚ) : WithTop ℚ) }) :
      Flushes s now (if u.rx.ranges.length > 0 then u.sendAck now else u) 0
  | send (bytes : Bytes) (hfits : s.tx.buffered.2 + bytes.length ≤ maxBuffered) :
      Flushes s now { s with
        accepted := s.accepted ++ [bytes]
        tx := { s.tx.buffered.1 with
          unsent := s.tx.buffered.1.unsent.push bytes
          written := s.tx.buffered.1.written + bytes.length } } 0
  | credit (credit : Nat) (u : UdpStream) (hu : u = s.heard now credit) :
      Flushes s now (if u.closing then { u with tx := u.tx.buffered.1 } else u) 0
  | ack (credit delay : Nat) (first : Nat × Nat) (rest : List (Nat × Nat)) (u : UdpStream)
      (hu : u = (s.heard now credit).onRanges now delay first (first :: rest)) :
      Flushes s now (if u.closing then { u with tx := u.tx.buffered.1 } else u) 0
  | loss (t : ℚ) (u : UdpStream) (hu : u = if (t : WithTop ℚ) ≥ s.liveAt then s.tick now t else s) :
      Flushes s now { u with recoveryAt := ⊤, tx := u.tx.detectLoss t } 0
  | timeout (t : ℚ) (u : UdpStream) (hu : u = if (t : WithTop ℚ) ≥ s.liveAt then s.tick now t else s) :
      Flushes s now { u with recoveryAt := ⊤, tx := u.tx.timeout } 2
  | repath (rttMs : ℚ) : Flushes s now ({ s with tx := s.tx.rerouted now rttMs }.sendAck now) 0

theorem Flushes.numbered {s u : UdpStream} {now : ℚ} {probes : Nat} (h : Flushes s now u probes)
    (hs : s.Numbered) : u.Numbered := by
  have hbuffered : ∀ v : UdpStream, v.Numbered →
      (if v.closing then { v with tx := v.tx.buffered.1 } else v).Numbered := by
    intro v hv
    split
    · exact UdpStream.buffered_numbered hv
    · exact hv
  have htick : ∀ t : ℚ, (if (t : WithTop ℚ) ≥ s.liveAt then s.tick now t else s).Numbered := by
    intro t
    split
    · exact hs.frame (UdpStream.tick_desk _ _ _)
    · exact hs
  cases h with
  | start u hu =>
    have hnum : u.Numbered := by
      rw [hu]
      exact hs
    split
    · exact hnum.frame (UdpStream.sendAck_desk _ _)
    · exact hnum
  | send bytes hfits =>
    exact Stream.Numbered.shrink (UdpStream.buffered_numbered hs)
      (Sending.Shrinks.of_eq rfl rfl rfl rfl rfl)
  | credit credit u hu => exact hbuffered u (hu ▸ UdpStream.heard_numbered hs now credit)
  | ack credit delay first rest u hu =>
    exact hbuffered u (hu ▸ UdpStream.onRanges_numbered (UdpStream.heard_numbered hs now credit)
      now delay first (first :: rest))
  | loss t u hu =>
    have hnum : u.Numbered := hu ▸ htick t
    exact Stream.Numbered.detectLoss hnum t
  | timeout t u hu =>
    have hnum : u.Numbered := hu ▸ htick t
    exact Stream.Numbered.shrink hnum (Sending.timeout_shrinks _)
  | repath rttMs =>
    exact (UdpStream.shrink_numbered hs (Sending.rerouted_shrinks s.tx now rttMs)).frame
      (UdpStream.sendAck_desk _ _)

/-- The books of a sender, with the ranges acked so far. -/
structure Sending.Balanced (tx : Sending) (acked : List (Nat × Nat)) : Prop where
  weight : tx.bytesInFlight = tx.inFlight.sum (fun e => e.2.size)
  tiles : Tiles (spans tx.chunks ++ acked) tx.nextOffset
  unsent : tx.nextOffset ≤ tx.written ∧ tx.unsent.bytes = tx.written - tx.nextOffset
  sorted : tx.sentOffsets.Pairwise (· < ·)
  listed : ∀ o c, tx.chunks.get o = some c → o ∈ tx.sentOffsets.drop tx.sentHead
  oldest : ∀ o, tx.oldestChunk.2 = some o →
    (∃ c, tx.chunks.get o = some c) ∧ ∀ o' c', tx.chunks.get o' = some c' → o ≤ o'
  noneLeft : tx.oldestChunk.2 = none → ∀ o, tx.chunks.get o = none
  passed : ∀ x, x < tx.oldestChunk.2.getD tx.nextOffset → ∃ r ∈ acked, covers x r
  reached : ∀ r ∈ acked, ¬ covers (tx.oldestChunk.2.getD tx.nextOffset) r
  buffered : tx.buffered.2 = tx.written - tx.oldestChunk.2.getD tx.nextOffset ∧
    tx.buffered.2 ≤ maxBuffered
  flying : ∀ pn f, tx.inFlight.get pn = some f → tx.oldestPn ≤ pn
  window : minWindow ≤ tx.window

/-- Each floor sent is no later than its own packet, what is in flight and the probes out. -/
def UdpStream.Floored (s : UdpStream) : Prop :=
  ∀ pn o floor bs, .data pn o floor bs ∈ s.emitted → floor ≤ pn ∧
    (∀ k f, s.tx.inFlight.get k = some f → floor ≤ k) ∧ ∀ q ∈ s.tx.probes, floor ≤ q

theorem UdpStream.Numbered.sent {s : UdpStream} (h : s.Numbered) : s.Floored := by
  intro pn o floor bs hp
  obtain ⟨h₁, -, h₂, h₃⟩ := h.floored (pn, floor) (mem_floors.mpr ⟨o, bs, hp⟩)
  refine ⟨h₁, fun k f hf => ?_, h₃⟩
  have := (h.flying k f hf).1
  dsimp only at h₂
  omega

theorem Booked.passed {tx : Sending} {acked : List (Nat × Nat)} (h : Booked tx acked) :
    (∀ x, x < tx.oldestChunk.2.getD tx.nextOffset → ∃ r ∈ acked, covers x r) ∧
    ∀ r ∈ acked, ¬ covers (tx.oldestChunk.2.getD tx.nextOffset) r := by
  obtain ⟨hleast, hnone⟩ := h.list.oldest_least
  have hle : tx.oldestChunk.2.getD tx.nextOffset ≤ tx.nextOffset := by
    cases ho : tx.oldestChunk.2 with
    | none => exact Nat.le_refl _
    | some o =>
      obtain ⟨⟨c, hc⟩, -⟩ := hleast o ho
      have := (h.list.chunk o c hc).2
      rw [Option.getD_some]
      omega
  have hfrom : ∀ o c, tx.chunks.get o = some c → tx.oldestChunk.2.getD tx.nextOffset ≤ o := by
    intro o c hc
    cases ho : tx.oldestChunk.2 with
    | none =>
      rw [hnone ho o] at hc
      cases hc
    | some oldest => exact (hleast oldest ho).2 o c hc
  have hspan : ∀ r ∈ spans tx.chunks, ∃ c, tx.chunks.get r.1 = some c ∧ r.2 = c.length := by
    intro r hr
    obtain ⟨e, he, rfl⟩ := List.mem_map.mp hr
    exact ⟨e.2, (OrdMap.get_eq_some _ _ _).mpr he, rfl⟩
  constructor
  · intro x hx
    have hcount := h.tiles x
    rw [if_pos (by omega), List.countP_append] at hcount
    have hzero : (spans tx.chunks).countP (covers x) = 0 := by
      rw [List.countP_eq_zero]
      intro r hr hcov
      obtain ⟨c, hc, -⟩ := hspan r hr
      have := hfrom _ c hc
      simp only [covers, decide_eq_true_eq] at hcov
      omega
    obtain ⟨r, hr, hcov⟩ := List.countP_pos_iff.mp (show 0 < acked.countP (covers x) by omega)
    exact ⟨r, hr, hcov⟩
  · intro r hr hcov
    have hpos : 0 < acked.countP (covers (tx.oldestChunk.2.getD tx.nextOffset)) :=
      List.countP_pos_iff.mpr ⟨r, hr, hcov⟩
    have hcount := h.tiles (tx.oldestChunk.2.getD tx.nextOffset)
    rw [List.countP_append] at hcount
    cases ho : tx.oldestChunk.2 with
    | none =>
      rw [ho, Option.getD_none] at hcount hpos
      rw [if_neg (Nat.lt_irrefl _)] at hcount
      omega
    | some o =>
      rw [ho, Option.getD_some] at hcount hpos
      obtain ⟨⟨c, hc⟩, -⟩ := hleast o ho
      have hne := List.length_pos_iff.mpr (h.list.chunk o c hc).1
      have hself : 0 < (spans tx.chunks).countP (covers o) := by
        refine List.countP_pos_iff.mpr ⟨(o, c.length), List.mem_map.mpr
          ⟨(o, c), (OrdMap.get_eq_some _ _ _).mp hc, rfl⟩, ?_⟩
        simp only [covers, decide_eq_true_eq]
        omega
      split at hcount <;> omega

/-- Whatever is sent, and whatever packets come, wakes fire and paths move: at rest the books
of a sender balance, counting the chunks acked, each by an ack that names a packet in flight
that carried it; and within every flush, after each packet of it, each floor sent is no later
than its packet's own number, than what is then in flight and the probes then out. -/
theorem books_balance {s : UdpStream} {acked : List (Nat × Nat)} (h : Kept s acked) :
    s.tx.Balanced acked ∧
    (∀ now p, ∀ r ∈ s.ackedBy now p, ∃ credit delay ranges pn f,
      decode p = some (.ack credit delay ranges) ∧ names ranges pn = true ∧
      s.tx.inFlight.get pn = some f ∧ f.offset = r.1) ∧
    s.Floored ∧
    ∀ (now : ℚ) (u : UdpStream) (probes k : Nat), Flushes s now u probes →
      (UdpStream.flushLoop now k probes u).Floored := by
  have hbooked := h.booked
  have hledger := h.run.sane.fair.tx
  obtain ⟨hleast, hnone⟩ := hbooked.list.oldest_least
  obtain ⟨hpassed, hreached⟩ := hbooked.passed
  obtain ⟨hbuffered, hle, hheld⟩ := hbooked.list.buffered_eq
  have hunsent := hbooked.list.unsent
  refine ⟨⟨hledger.weight, hbooked.tiles, ⟨by omega, by omega⟩, hbooked.list.sorted,
    hbooked.list.listed, hleast, hnone, hpassed, hreached, ⟨hbuffered, by omega⟩,
    fun pn f hf => (h.run.numbered.flying pn f hf).1, hledger.window⟩,
    UdpStream.ackedBy_named s, h.run.numbered.sent, ?_⟩
  intro now u probes k hf
  exact (UdpStream.flushLoop_numbered now k probes (hf.numbered h.run.numbered)).sent

/-- Four packets sent and the middle two acked by overlapping ranges. -/
theorem books_balance_acked :
    ∃ acked, ((fourSent.receive 1 (encode (.ack initialCredit 0 [(2, 1), (2, 0)]))).tx).Balanced acked := by
  have hkept : Kept fourSent [] :=
    ((((Kept.new.call 0 .start).call 0 (.send [1])).call 0 (.send [2])).call 0 (.send [3])).call 0
      (.send [4])
  exact ⟨_, (books_balance (hkept.receive 1 (encode (.ack initialCredit 0 [(2, 1), (2, 0)])))).1⟩

end SeedTransport.Stream
