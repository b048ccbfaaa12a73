import Mathlib
import SeedTransport.Stream.Net

set_option autoImplicit false

namespace SeedTransport.Stream

/-! What two streams joined by such a network can rely on. -/

namespace Net

theorem Reachable.safe {N : Net} (h : Reachable N) (hf : Fits False N) : N.flow.Safe := by
  induction h with
  | refl =>
    refine ⟨Nat.le_refl _, ?_, ?_, ?_, rfl, Nat.le_refl _⟩
    all_goals simp [flow, Ledger.flow, UdpStream.ledger]
  | tail hrun hstep ih =>
    have hf' := hf.before hrun hstep
    exact (ih hf').steps (hstep.flow hrun hf' (ih hf') False.elim)

theorem Reachable.sound {N : Net} (h : Reachable N) (hf : Fits True N) : N.flow.Sound := by
  induction h with
  | refl =>
    refine ⟨?_, ?_, ?_, ?_, ?_, ?_, ?_, ?_, ?_, ?_, Or.inl rfl, ?_⟩
    all_goals simp [flow, Ledger.flow, UdpStream.ledger, names]
  | tail hrun hstep ih =>
    have hf' := hf.before hrun hstep
    have hS := Reachable.safe hrun ⟨hf'.stream, False.elim⟩
    exact (ih hf').steps hS (hstep.flow hrun hf' hS (fun _ => ih hf'))

/-- What an end has handed its reader is a prefix of what the other end was given to send. -/
theorem handed_prefix_accepted {N : Net} (h : Reachable N) :
    (N.a.accepted.flatten.length < 2 ^ 48 → N.b.handed.flatten <+: N.a.accepted.flatten) ∧
      (N.b.accepted.flatten.length < 2 ^ 48 → N.a.handed.flatten <+: N.b.accepted.flatten) :=
  ⟨fun hlt => (h.safe ⟨hlt, False.elim⟩).handed_isPrefix,
    fun hlt => (h.swap.safe ⟨hlt, False.elim⟩).handed_isPrefix⟩

/-- Three bytes sent, received and read. -/
theorem handed_prefix_accepted_read :
    (run {} [.callA 0 .start, .callB 0 .start, .callB 0 .reader, .callA 0 (.send [1, 2, 3]),
      .deliverB 1 0, .callB 1 .turn]).b.handed.flatten = [1, 2, 3] ∧
    (run {} [.callA 0 .start, .callB 0 .start, .callB 0 .reader, .callA 0 (.send [1, 2, 3]),
      .deliverB 1 0, .callB 1 .turn]).b.handed.flatten <+:
    (run {} [.callA 0 .start, .callB 0 .start, .callB 0 .reader, .callA 0 (.send [1, 2, 3]),
      .deliverB 1 0, .callB 1 .turn]).a.accepted.flatten :=
  ⟨by decide +kernel,
    (handed_prefix_accepted (Reachable.run .refl [.callA 0 .start, .callB 0 .start,
      .callB 0 .reader, .callA 0 (.send [1, 2, 3]), .deliverB 1 0, .callB 1 .turn])).1
      (by decide +kernel)⟩

/-- The end keeps byte `x` to send again. -/
def Keeps (s : UdpStream) (x : Nat) : Prop :=
  ∃ o c, s.tx.chunks.get o = some c ∧ o ≤ x ∧ x < o + c.length

/-- Byte `x` has reached the end. -/
def Has (s : UdpStream) (x : Nat) : Prop :=
  x < s.rx.taken + s.rx.held.bytes ∨
    ∃ o bs, s.rx.ahead.get o = some bs ∧ o ≤ x ∧ x < o + bs.length

/-- Sender `s` has freed no byte that receiver `r` still needs. -/
def AckSound (s r : UdpStream) : Prop :=
  (∀ x, x < s.tx.nextOffset → ¬ Keeps s x → Has r x) ∧
    (s.tx.buffered.2 = 0 → r.rx.taken + r.rx.held.bytes = s.tx.written)

/-- Once everything sent is acked, all of it has arrived. -/
theorem Reachable.arrived {N : Net} (h : Reachable N) (hf : Fits True N)
    (hd : N.a.ledger.Drained) :
    N.b.handed.flatten ++ N.b.rx.held.flat = N.a.accepted.flatten := by
  obtain ⟨ha, hb⟩ := h.sane
  have hS := h.safe ⟨hf.stream, False.elim⟩
  have hord : N.flow.inOrder = N.b.rx.taken + N.b.rx.held.bytes := Ledger.flow_inOrder hb.fair.rx
  have hquiet : N.flow.ahead N.flow.inOrder = none := by
    rw [hord]
    exact hb.quiet
  have hall : N.flow.inOrder = N.a.accepted.flatten.length :=
    ((h.sound hf).complete hS hd.1 hquiet).trans (hd.2.trans ha.fair.tx.written)
  have harr : N.b.handed.flatten ++ N.b.rx.held.flat =
      N.a.accepted.flatten.take N.flow.inOrder := hS.arrived
  rw [harr, hall, List.take_length]

theorem Reachable.ackSound {N : Net} (h : Reachable N)
    (hs : N.a.accepted.flatten.length < 2 ^ 48) (hn : N.a.tx.nextPn ≤ 2 ^ 48) :
    AckSound N.a N.b := by
  obtain ⟨ha, hb⟩ := h.sane
  have hS := h.safe ⟨hs, False.elim⟩
  have hG := h.sound ⟨hs, fun _ => hn⟩
  have hord : N.flow.inOrder = N.b.rx.taken + N.b.rx.held.bytes := Ledger.flow_inOrder hb.fair.rx
  refine ⟨?_, ?_⟩
  · intro x hx hk
    have hcov := hG.freed x hx (by
      intro o c hc ho
      by_contra hlt
      exact hk ⟨o, c, hc, ho, by omega⟩)
    rcases hcov with hc | hc
    · exact Or.inl (hord ▸ hc)
    · exact Or.inr hc
  · intro hzero
    have harr := congrArg List.length
      (h.arrived ⟨hs, fun _ => hn⟩ (UdpStream.drained_of_buffered ha.fair.tx hzero))
    have htaken : N.b.rx.taken = N.b.handed.flatten.length := hb.fair.rx.taken
    have hwritten : N.a.tx.written = N.a.accepted.flatten.length := ha.fair.tx.written
    rw [htaken, hwritten, ← harr, List.length_append]
    rfl

/-- As long as an end has used no more packet numbers than their field holds, it has freed no
byte the other still needs. -/
theorem freed_reached {N : Net} (h : Reachable N) :
    (N.a.accepted.flatten.length < 2 ^ 48 → N.a.tx.nextPn ≤ 2 ^ 48 → AckSound N.a N.b) ∧
      (N.b.accepted.flatten.length < 2 ^ 48 → N.b.tx.nextPn ≤ 2 ^ 48 → AckSound N.b N.a) :=
  ⟨h.ackSound, h.swap.ackSound⟩

/-- Three bytes sent, received and acked. -/
theorem freed_reached_acked :
    (run {} [.callA 0 .start, .callB 0 .start, .callA 0 (.send [1, 2, 3]), .deliverB 1 0,
      .callB 1 .turn, .deliverA 2 0]).a.tx.chunks.size = 0 ∧
    AckSound (run {} [.callA 0 .start, .callB 0 .start, .callA 0 (.send [1, 2, 3]), .deliverB 1 0,
      .callB 1 .turn, .deliverA 2 0]).a (run {} [.callA 0 .start, .callB 0 .start,
      .callA 0 (.send [1, 2, 3]), .deliverB 1 0, .callB 1 .turn, .deliverA 2 0]).b :=
  ⟨by decide +kernel,
    (freed_reached (Reachable.run .refl [.callA 0 .start, .callB 0 .start,
      .callA 0 (.send [1, 2, 3]), .deliverB 1 0, .callB 1 .turn, .deliverA 2 0])).1
      (by decide +kernel) (by decide +kernel)⟩

end Net

/-! Past the last packet number their field holds, an ack can name a packet that is lost. -/

theorem Sending.fresh_zero {tx : Sending} (h : tx.unsent.bytes = 0) : tx.fresh = 0 := by
  unfold Sending.fresh
  omega

namespace UdpStream

theorem sendAck_tx (s : UdpStream) (now : ℚ) :
    (s.sendAck now).tx = s.tx ∧ (s.sendAck now).out = s.out ∧ (s.sendAck now).gone = s.gone := by
  unfold sendAck
  split
  · exact ⟨rfl, rfl, rfl⟩
  · dsimp only
    split <;> exact ⟨rfl, rfl, rfl⟩

/-- A flush with nothing lost and nothing unsent sends nothing. -/
theorem flush_idle (s : UdpStream) (now : ℚ) (hlost : s.tx.lost.keys = [])
    (hunsent : s.tx.unsent.bytes = 0) : ∃ limited at_, s.flush now 0 =
      { s with tx := { s.tx with windowLimited := limited }, recoveryAt := at_ } := by
  have harm : ∀ limited, ∃ at_, ({ s with tx := { s.tx with windowLimited := limited } } :
      UdpStream).arm = { s with tx := { s.tx with windowLimited := limited }, recoveryAt := at_ } := by
    intro limited
    unfold arm
    split
    · exact ⟨_, rfl⟩
    · split <;> exact ⟨_, rfl⟩
  have hnext : s.tx.nextChunk false = (s.tx, none) := by
    unfold Sending.nextChunk
    rw [hlost]
    simp only [Sending.nextLost, Sending.fresh_zero hunsent, gt_iff_lt, Nat.lt_irrefl, if_false,
      Bool.false_eq_true]
  unfold flush
  split
  · exact ⟨s.tx.windowLimited, s.recoveryAt, rfl⟩
  · rw [show flushBound s.tx + 0 + 1 = flushBound s.tx + 1 from rfl]
    unfold flushLoop
    split
    · obtain ⟨at_, h⟩ := harm _
      exact ⟨_, at_, h⟩
    · simp only [gt_iff_lt, Nat.lt_irrefl, decide_false, hnext]
      obtain ⟨at_, h⟩ := harm false
      exact ⟨_, at_, h⟩

end UdpStream

namespace Net

/-- One byte sent, in a packet numbered 0. -/
def wrapStart : Net := run {} [.callA 0 .start, .callB 0 .start, .callA 0 (.send [7])]

/-- The byte is still in flight, and `k` numbers past its own have gone to probes. -/
structure Probing (k : Nat) (s : UdpStream) : Prop where
  out : s.out = true
  gone : s.gone = false
  unsent : s.tx.unsent = wrapStart.a.tx.unsent
  lost : s.tx.lost = wrapStart.a.tx.lost
  chunks : s.tx.chunks = wrapStart.a.tx.chunks
  inFlight : s.tx.inFlight = wrapStart.a.tx.inFlight
  nextOffset : s.tx.nextOffset = 1
  oldestPn : s.tx.oldestPn = 0
  nextPn : s.tx.nextPn = k + 1
  probe : 0 < k → .probe k ∈ s.emitted

theorem Probing.repath {k : Nat} {s : UdpStream} (h : Probing k s) :
    Probing (k + 1) (s.repath 0 0) := by
  have htx : (s.tx.rerouted 0 0).unsent = s.tx.unsent ∧ (s.tx.rerouted 0 0).lost = s.tx.lost ∧
      (s.tx.rerouted 0 0).chunks = s.tx.chunks ∧ (s.tx.rerouted 0 0).inFlight = s.tx.inFlight ∧
      (s.tx.rerouted 0 0).nextOffset = s.tx.nextOffset ∧
      (s.tx.rerouted 0 0).oldestPn = s.tx.oldestPn ∧
      (s.tx.rerouted 0 0).nextPn = s.tx.nextPn := by
    unfold Sending.rerouted Sending.sample
    dsimp only
    exact ⟨rfl, rfl, rfl, rfl, rfl, rfl, rfl⟩
  obtain ⟨hunsent, hlost, hchunks, hflight, hnext, hold, hpn⟩ := htx
  obtain ⟨hack, hout, hgone⟩ :=
    UdpStream.sendAck_tx { s with tx := s.tx.rerouted 0 0 } 0
  dsimp only at hack hout hgone
  unfold UdpStream.repath
  rw [if_neg (by rw [h.gone]; decide)]
  generalize UdpStream.sendAck { s with tx := s.tx.rerouted 0 0 } 0 = s₁ at hack hout hgone
  obtain ⟨limited, at_, hflush⟩ := UdpStream.flush_idle s₁ 0
    (by rw [hack, hlost, h.lost]; decide +kernel)
    (by rw [hack, hunsent, h.unsent]; decide +kernel)
  rw [hflush]
  unfold UdpStream.startProbe UdpStream.sendProbe
  dsimp only
  rw [if_neg (by rw [hgone, hout, h.gone, h.out]; decide), if_neg (by decide)]
  refine ⟨hout.trans h.out, hgone.trans h.gone, ?_, ?_, ?_, ?_, ?_, ?_, ?_, ?_⟩
  all_goals simp only [UdpStream.emit, hack, hunsent, hlost, hchunks, hflight, hnext, hold, hpn,
    h.unsent, h.lost, h.chunks, h.inFlight, h.nextOffset, h.oldestPn, h.nextPn]
  intro _
  simp

theorem probing_reachable (k : Nat) : ∃ N, Reachable N ∧ Probing k N.a ∧ N.b = wrapStart.b := by
  induction k with
  | zero =>
    refine ⟨wrapStart, Reachable.run .refl _, ⟨?_, ?_, rfl, rfl, rfl, rfl, ?_, ?_, ?_, ?_⟩, rfl⟩
    all_goals decide +kernel
  | succ k ih =>
    obtain ⟨N, hN, hp, hb⟩ := ih
    exact ⟨_, hN.tail (.callA 0 (.repath 0)), hp.repath, hb⟩

/-- Nothing is kept and nothing is left to send. -/
def Drained (l : Ledger) : Prop :=
  (∀ o, l.chunks.get o = none) ∧ l.unsent.bytes = 0 ∧ 0 < l.nextOffset

theorem Drained.steps {p : Packet} {l l' : Ledger} (h : Drained l)
    (hs : Ledger.Steps (some p) l l') : Drained l' := by
  induction hs with
  | refl => exact h
  | tail _ hstep ih =>
    obtain ⟨hc, hu, hn⟩ := ih
    cases hstep with
    | accept bs hi => cases hi
    | split o m c offsets hg ho => rw [hc o] at ho; cases ho
    | cut n hg hp h0 hle => omega
    | ack pn credit delay ranges f hg hf hi hnm =>
      refine ⟨?_, hu, hn⟩
      intro o
      simp only [OrdMap.get_delete, hc o, ite_self]
    | _ => exact ⟨hc, hu, hn⟩

/-- The ack of packet 0 frees the byte. -/
theorem Probing.acked {k : Nat} {s : UdpStream} (h : Probing k s) (hl : s.ledger.TxFair)
    (now : ℚ) (credit delay : Nat) :
    Drained (s.onAck now credit delay [(0, 0)]).ledger := by
  have hflight : s.tx.inFlight.get 0 = some { offset := 0, size := 28, time := 0 } := by
    rw [h.inFlight]
    decide +kernel
  have hkept : ∀ o, (s.tx.chunks.delete 0).get o = none := by
    rw [← OrdMap.size_eq_zero, h.chunks]
    decide +kernel
  have hdrained : Drained ((s.credited credit).books
      (UdpStream.ackNamed (s.credited credit).tx (min ((0 : Nat) : Int) ((s.tx.nextPn : Int) - 1))
        [(0, 0)]).1) := by
    have hpn : (s.credited credit).tx.nextPn = k + 1 := h.nextPn
    have hold : (s.credited credit).tx.oldestPn = 0 := h.oldestPn
    have hmin : min ((0 : Nat) : Int) (((k + 1 : Nat) : Int) - 1) = 0 := by omega
    have hrange : (UdpStream.ackNamed (s.credited credit).tx
        (min ((0 : Nat) : Int) ((s.tx.nextPn : Int) - 1)) [(0, 0)]) =
        Sending.ackPacket 0 ((s.credited credit).tx, none) 0 := by
      unfold UdpStream.ackNamed
      rw [h.nextPn, hmin, List.foldl_cons, List.foldl_nil]
      unfold Sending.ackRange Sending.rangeTop
      dsimp only
      rw [hpn, hold, hmin]
      rfl
    have hf : (s.credited credit).tx.inFlight.get 0 = some { offset := 0, size := 28, time := 0 } :=
      hflight
    rw [hrange]
    unfold Sending.ackPacket
    dsimp only
    rw [hf]
    refine ⟨hkept, ?_, ?_⟩
    · change s.tx.unsent.bytes = 0
      rw [h.unsent]
      decide +kernel
    · change 0 < s.tx.nextOffset
      rw [h.nextOffset]
      decide
  have hrest : Ledger.Steps (some (.ack credit delay [(0, 0)])) _
      ((s.credited credit).onRanges now delay (0, 0) [(0, 0)]).ledger :=
    UdpStream.onRanges_rest (s.credited credit) now (0, 0)
  have hl' : ((s.credited credit).onRanges now delay (0, 0) [(0, 0)]).ledger.TxFair := by
    have hall : Ledger.Steps (some (.ack credit delay [(0, 0)])) s.ledger _ :=
      UdpStream.onRanges_steps (s.credited credit) h.gone now (0, 0)
    exact hl.steps hall
  exact (hdrained.steps hrest).steps (UdpStream.afterAck_steps (some (.ack credit delay [(0, 0)]))
    _ now hl')

theorem Probing.stream {k : Nat} {s : UdpStream} (h : Probing k s) (hl : s.ledger.TxFair) :
    s.accepted.flatten.length = 1 := by
  have hwritten : s.tx.written = s.accepted.flatten.length := hl.written
  have hle : s.tx.nextOffset ≤ s.tx.written := hl.next_le
  have hbytes : s.tx.unsent.bytes = s.tx.written - s.tx.nextOffset := hl.unsent_bytes
  have hzero : s.tx.unsent.bytes = 0 := by
    rw [h.unsent]
    decide +kernel
  have hnext := h.nextOffset
  omega

/-- After 2⁴⁸ probes one is numbered as the lost packet was, and acking it frees a byte that
never arrived. -/
theorem freed_unreached : ∃ N, Reachable N ∧ N.b.gone = false ∧
    N.a.accepted.flatten.length < 2 ^ 48 ∧ ¬ AckSound N.a N.b := by
  obtain ⟨N, hN, hp, hb⟩ := probing_reachable (2 ^ 48)
  have hprobe : .probe (2 ^ 48) ∈ N.a.emitted := hp.probe (by decide)
  have h₂ := (hN.tail (.deliverB 0 (List.replicate 8 0) _ hprobe rfl)).tail (.callB 0 .turn)
  dsimp only at h₂
  rw [hb] at h₂
  have hfacts : .ack 1048576 0 [(0, 0)] ∈ ((wrapStart.b.receive 0
        (stamp (List.replicate 8 0) (encode (.probe (2 ^ 48))))).call 0 .turn).emitted ∧
      ((wrapStart.b.receive 0
        (stamp (List.replicate 8 0) (encode (.probe (2 ^ 48))))).call 0 .turn).gone = false ∧
      ((wrapStart.b.receive 0
        (stamp (List.replicate 8 0) (encode (.probe (2 ^ 48))))).call 0 .turn).rx.inOrder = 0 ∧
      ((wrapStart.b.receive 0
        (stamp (List.replicate 8 0) (encode (.probe (2 ^ 48))))).call 0 .turn).rx.ahead.size = 0 := by
    decide +kernel
  generalize (wrapStart.b.receive 0
    (stamp (List.replicate 8 0) (encode (.probe (2 ^ 48))))).call 0 .turn = b at h₂ hfacts
  obtain ⟨hack, hgone, hord, hahead⟩ := hfacts
  have h₃ := h₂.tail (.deliverA 0 (List.replicate 8 0) _ hack rfl)
  have ha : Sane N.a := hN.sane.1
  have hdec : decode (stamp (List.replicate 8 0) (encode (.ack 1048576 0 [(0, 0)]))) =
      some (.ack 1048576 0 [(0, 0)]) := by decide +kernel
  have hsteps := N.a.receive_steps 0 (stamp (List.replicate 8 0) (encode (.ack 1048576 0 [(0, 0)])))
    ha.fair.tx ha.quiet
  rw [hdec] at hsteps
  have hdrained : Drained
      (N.a.receive 0 (stamp (List.replicate 8 0) (encode (.ack 1048576 0 [(0, 0)])))).ledger := by
    unfold UdpStream.receive
    rw [if_neg (by rw [hp.gone]; decide), hdec]
    exact Probing.acked (s := { N.a with lastHeard := 0 }) ⟨hp.out, hp.gone, hp.unsent, hp.lost,
      hp.chunks, hp.inFlight, hp.nextOffset, hp.oldestPn, hp.nextPn, hp.probe⟩ ha.fair.tx 0 1048576 0
  refine ⟨_, h₃, hgone, ?_, ?_⟩
  · have hacc := hsteps.accepted
    change (N.a.receive 0 _).accepted = N.a.accepted at hacc
    dsimp only
    rw [hacc, hp.stream ha.fair.tx]
    decide
  · rintro ⟨hfreed, -⟩
    have hhas := hfreed 0 hdrained.2.2 (by
      rintro ⟨o, c, hc, -, -⟩
      exact Option.some_ne_none c (hc.symm.trans (hdrained.1 o)))
    rcases hhas with hlt | ⟨o, bs, hbs, -, -⟩
    · change 0 < b.rx.inOrder at hlt
      omega
    · exact Option.some_ne_none bs (hbs.symm.trans ((OrdMap.size_eq_zero _).mp hahead o))

end Net

end SeedTransport.Stream
