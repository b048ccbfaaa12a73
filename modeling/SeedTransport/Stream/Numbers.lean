import Mathlib
import SeedTransport.Stream.Pace

set_option autoImplicit false

namespace SeedTransport.Stream

/-! The packet numbers a sender keeps: what is in flight lies from `oldestPn` on and below
`nextPn`, and a DATA packet's floor is no later than anything its sender still waits for. -/

/-- The number and the floor of a DATA packet. -/
def Packet.floor? : Packet → Option (Nat × Nat)
  | .data pn _ floor _ => some (pn, floor)
  | _ => none

/-- The numbers and floors of the DATA packets among `ps`. -/
def floors (ps : List Packet) : List (Nat × Nat) := ps.filterMap Packet.floor?

theorem floors_append (ps qs : List Packet) : floors (ps ++ qs) = floors ps ++ floors qs :=
  List.filterMap_append

theorem mem_floors {ps : List Packet} {pn floor : Nat} :
    (pn, floor) ∈ floors ps ↔ ∃ o bs, .data pn o floor bs ∈ ps := by
  simp only [floors, List.mem_filterMap]
  constructor
  · rintro ⟨p, hp, he⟩
    cases p with
    | data k o f bs =>
      simp only [Packet.floor?, Option.some.injEq, Prod.mk.injEq] at he
      obtain ⟨rfl, rfl⟩ := he
      exact ⟨o, bs, hp⟩
    | ack credit delay ranges => cases he
    | probe k => cases he
    | close => cases he
  · rintro ⟨o, bs, hp⟩
    exact ⟨_, hp, rfl⟩

/-- The numbers are in order, and so are the floors sent. -/
structure Numbered (tx : Sending) (sent : List (Nat × Nat)) : Prop where
  oldest : tx.oldestPn ≤ tx.nextPn
  flying : ∀ pn f, tx.inFlight.get pn = some f → tx.oldestPn ≤ pn ∧ pn < tx.nextPn
  acked : tx.largestAcked < tx.nextPn
  probed : ∀ q ∈ tx.probes, q < tx.nextPn
  ordered : tx.probes.Pairwise (· < ·)
  floored : ∀ r ∈ sent, r.2 ≤ r.1 ∧ r.1 < tx.nextPn ∧ r.2 ≤ tx.oldestPn ∧ ∀ q ∈ tx.probes, r.2 ≤ q

/-- What the numbers of a stream depend on: its sending half, and the floors it has sent. -/
def UdpStream.desk (s : UdpStream) : Sending × List (Nat × Nat) := (s.tx, floors s.emitted)

def UdpStream.Numbered (s : UdpStream) : Prop := Stream.Numbered s.tx (floors s.emitted)

theorem UdpStream.Numbered.frame {s s' : UdpStream} (h : s.Numbered) (hd : s'.desk = s.desk) :
    s'.Numbered := by
  obtain ⟨htx, hfloors⟩ := Prod.mk.inj hd
  unfold UdpStream.Numbered
  rw [htx, hfloors]
  exact h

/-- What acks, losses and changes of rate do with the numbers: what is in flight, and the
probes, only leave. -/
structure Sending.Shrinks (tx tx' : Sending) : Prop where
  nextPn : tx'.nextPn = tx.nextPn
  oldestPn : tx'.oldestPn = tx.oldestPn
  largestAcked : tx'.largestAcked = tx.largestAcked
  probes : tx'.probes.Sublist tx.probes
  inFlight : ∀ pn f, tx'.inFlight.get pn = some f → tx.inFlight.get pn = some f

namespace Sending

theorem Shrinks.refl (tx : Sending) : Shrinks tx tx :=
  ⟨rfl, rfl, rfl, List.Sublist.refl _, fun _ _ h => h⟩

theorem Shrinks.trans {tx tx' tx'' : Sending} (h : Shrinks tx tx') (h' : Shrinks tx' tx'') :
    Shrinks tx tx'' where
  nextPn := h'.nextPn.trans h.nextPn
  oldestPn := h'.oldestPn.trans h.oldestPn
  largestAcked := h'.largestAcked.trans h.largestAcked
  probes := h'.probes.trans h.probes
  inFlight pn f hf := h.inFlight pn f (h'.inFlight pn f hf)

/-- A change that leaves the numbers alone. -/
theorem Shrinks.of_eq {tx tx' : Sending} (h₁ : tx'.nextPn = tx.nextPn)
    (h₂ : tx'.oldestPn = tx.oldestPn) (h₃ : tx'.largestAcked = tx.largestAcked)
    (h₄ : tx'.probes = tx.probes) (h₅ : tx'.inFlight = tx.inFlight) : Shrinks tx tx' :=
  ⟨h₁, h₂, h₃, h₄ ▸ List.Sublist.refl _, fun _ _ h => h₅ ▸ h⟩

theorem get_delete_some {m : OrdMap Nat Flight} {k pn : Nat} {f : Flight}
    (h : (m.delete k).get pn = some f) : m.get pn = some f := by
  rw [OrdMap.get_delete] at h
  split at h
  · cases h
  · exact h

theorem ackPacket_shrinks (largest : Int) (a : Sending × Option Flight) (pn : Nat) :
    Shrinks a.1 (ackPacket largest a pn).1 := by
  unfold ackPacket
  dsimp only
  split
  · exact Shrinks.refl _
  · exact ⟨rfl, rfl, rfl, List.Sublist.refl _, fun _ _ h => get_delete_some h⟩

theorem ackPackets_shrinks (largest : Int) (pns : List Nat) (a : Sending × Option Flight) :
    Shrinks a.1 (pns.foldl (ackPacket largest) a).1 := by
  induction pns generalizing a with
  | nil => exact Shrinks.refl _
  | cons pn pns ih => exact (ackPacket_shrinks largest a pn).trans (ih _)

theorem ackRange_shrinks (largest : Int) (a : (Sending × Option Flight) × Option Int)
    (r : Nat × Nat) : Shrinks a.1.1 (ackRange largest a r).1.1 := by
  unfold ackRange
  dsimp only
  split
  · exact Shrinks.refl _
  · exact ackPackets_shrinks largest _ a.1

theorem ackRanges_shrinks (largest : Int) (ranges : List (Nat × Nat))
    (a : (Sending × Option Flight) × Option Int) :
    Shrinks a.1.1 (ranges.foldl (ackRange largest) a).1.1 := by
  induction ranges generalizing a with
  | nil => exact Shrinks.refl _
  | cons r ranges ih => exact (ackRange_shrinks largest a r).trans (ih _)

theorem ackNamed_shrinks (tx : Sending) (largest : Int) (ranges : List (Nat × Nat)) :
    Shrinks tx (UdpStream.ackNamed tx largest ranges).1 :=
  ackRanges_shrinks largest ranges ((tx, none), none)

theorem clearSuspects_shrinks (tx : Sending) (ranges : List (Nat × Nat)) :
    Shrinks tx (tx.clearSuspects ranges) := by
  unfold clearSuspects
  dsimp only
  split
  · split <;> exact Shrinks.of_eq rfl rfl rfl rfl rfl
  · exact Shrinks.of_eq rfl rfl rfl rfl rfl

theorem sample_shrinks (tx : Sending) (latest delay : ℚ) : Shrinks tx (tx.sample latest delay) := by
  unfold sample
  split <;> exact Shrinks.of_eq rfl rfl rfl rfl rfl

theorem scanPacket_shrinks (t delay persistence : ℚ) (a : LossScan) (pn : Nat) :
    Shrinks a.tx (scanPacket t delay persistence a pn).tx := by
  unfold scanPacket
  split
  · exact Shrinks.refl _
  · split
    · dsimp only
      have hlost : ∀ lost : OrdMap Nat Unit, ∀ n : Int, Shrinks a.tx { a.tx with
          inFlight := a.tx.inFlight.delete pn, bytesInFlight := n, lost := lost } := fun _ _ =>
        ⟨rfl, rfl, rfl, List.Sublist.refl _, fun _ _ h => get_delete_some h⟩
      split
      · exact hlost _ _
      · split
        · exact hlost _ _
        · split <;> exact hlost _ _
    · exact Shrinks.of_eq rfl rfl rfl rfl rfl

theorem scanPackets_shrinks (t delay persistence : ℚ) (pns : List Nat) (a : LossScan) :
    Shrinks a.tx (pns.foldl (scanPacket t delay persistence) a).tx := by
  induction pns generalizing a with
  | nil => exact Shrinks.refl _
  | cons pn pns ih => exact (scanPacket_shrinks t delay persistence a pn).trans (ih _)

/-- A cut changes the window and what an undo of it needs, nothing else. -/
theorem cutWindow_rest (t : ℚ) (a : LossScan) : ∃ recoveryStart undo suspects threshold window,
    cutWindow t a = { a.tx with
      recoveryStart := recoveryStart, undo := undo, suspects := suspects,
      threshold := threshold, window := window } := by
  unfold cutWindow
  dsimp only
  split_ifs <;> exact ⟨_, _, _, _, _, rfl⟩

theorem cutWindow_shrinks (t : ℚ) (a : LossScan) : Shrinks a.tx (cutWindow t a) := by
  obtain ⟨_, _, _, _, _, he⟩ := cutWindow_rest t a
  rw [he]
  exact Shrinks.of_eq rfl rfl rfl rfl rfl

theorem rerouted_shrinks (tx : Sending) (now rttMs : ℚ) : Shrinks tx (tx.rerouted now rttMs) := by
  have h := sample_shrinks { tx with
    window := initialWindow, threshold := ⊤, recoveryStart := (now : ℚ), undo := none,
    suspects := [], minRtt := ⊤ } rttMs 0
  exact ⟨h.nextPn, h.oldestPn, h.largestAcked, h.probes, h.inFlight⟩

theorem timeout_shrinks (tx : Sending) : Shrinks tx tx.timeout := by
  unfold timeout
  dsimp only
  split <;> exact Shrinks.of_eq rfl rfl rfl rfl rfl

theorem oldestChunk_shrinks (tx : Sending) : Shrinks tx tx.oldestChunk.1 := by
  unfold oldestChunk
  dsimp only
  split <;> exact Shrinks.of_eq rfl rfl rfl rfl rfl

theorem fit_shrinks (tx : Sending) (o : Nat) (c : Bytes) : Shrinks tx (tx.fit o c) := by
  unfold fit
  dsimp only
  split
  · exact Shrinks.refl _
  · exact Shrinks.of_eq rfl rfl rfl rfl rfl

theorem nextLost_shrinks (offsets : List Nat) (tx : Sending) :
    Shrinks tx (tx.nextLost offsets).1 := by
  induction offsets generalizing tx with
  | nil => exact Shrinks.refl _
  | cons o rest ih =>
    have hdrop : Shrinks tx { tx with lost := tx.lost.delete o } :=
      Shrinks.of_eq rfl rfl rfl rfl rfl
    unfold nextLost
    dsimp only
    split
    · exact hdrop.trans (fit_shrinks _ _ _)
    · exact hdrop.trans (ih _)

theorem nextChunk_shrinks (tx : Sending) (probe : Bool) : Shrinks tx (tx.nextChunk probe).1 := by
  have hlost := nextLost_shrinks tx.lost.keys tx
  unfold nextChunk
  split
  · rename_i tx₁ o he
    rwa [he] at hlost
  · rename_i tx₁ he
    rw [he] at hlost
    split
    · exact hlost.trans (Shrinks.of_eq rfl rfl rfl rfl rfl)
    · split
      · have hold := oldestChunk_shrinks tx₁
        split
        · rename_i tx₂ oldest he₂
          rw [he₂] at hold
          exact (hlost.trans hold).trans (fit_shrinks _ _ _)
        · rename_i tx₂ he₂
          rw [he₂] at hold
          exact hlost.trans hold
      · exact hlost

/-- `onAck` from the suspects up to the search for losses. -/
def _root.SeedTransport.Stream.Sending.learns (tx : Sending) (now : ℚ) (delay : Nat) (largest : Int)
    (newest : Option Flight) (ranges : List (Nat × Nat)) : Sending :=
  let tx := tx.clearSuspects ranges
  let tx := { tx with largestAcked := max tx.largestAcked largest }.advanceOldest
  match newest with
  | some f => tx.sample (now - f.time) delay
  | none => tx

/-- The walk of `advanceOldest` passes no packet in flight and stops at `nextPn` at most. -/
theorem firstInFlight_spec (m : OrdMap Nat Flight) (n pn : Nat) :
    pn ≤ firstInFlight m n pn ∧ firstInFlight m n pn ≤ pn + n ∧
      ∀ k, pn ≤ k → k < firstInFlight m n pn → m.get k = none := by
  induction n generalizing pn with
  | zero => exact ⟨Nat.le_refl _, Nat.le_refl _, fun k h₁ h₂ => by simp only [firstInFlight] at h₂; omega⟩
  | succ n ih =>
    unfold firstInFlight
    split
    · exact ⟨Nat.le_refl _, by omega, fun k h₁ h₂ => by omega⟩
    · rename_i hhas
      obtain ⟨h₁, h₂, h₃⟩ := ih (pn + 1)
      refine ⟨by omega, by omega, fun k hk hlt => ?_⟩
      by_cases hkp : k = pn
      · subst hkp
        rw [Option.eq_none_iff_forall_ne_some]
        intro f hf
        exact hhas ((OrdMap.has_iff _ _).mpr ⟨f, hf⟩)
      · exact h₃ k (by omega) hlt

end Sending

namespace Numbered

variable {tx : Sending} {sent : List (Nat × Nat)}

theorem shrink (h : Numbered tx sent) {tx' : Sending} (hs : tx.Shrinks tx') : Numbered tx' sent where
  oldest := by
    rw [hs.oldestPn, hs.nextPn]
    exact h.oldest
  flying pn f hf := by
    rw [hs.oldestPn, hs.nextPn]
    exact h.flying pn f (hs.inFlight pn f hf)
  acked := by
    rw [hs.largestAcked, hs.nextPn]
    exact h.acked
  probed q hq := by
    rw [hs.nextPn]
    exact h.probed q (hs.probes.subset hq)
  ordered := h.ordered.sublist hs.probes
  floored r hr := by
    obtain ⟨h₁, h₂, h₃, h₄⟩ := h.floored r hr
    rw [hs.nextPn, hs.oldestPn]
    exact ⟨h₁, h₂, h₃, fun q hq => h₄ q (hs.probes.subset hq)⟩

theorem advanceOldest (h : Numbered tx sent) : Numbered tx.advanceOldest sent := by
  obtain ⟨hlo, hhi, hnone⟩ := Sending.firstInFlight_spec tx.inFlight (tx.nextPn - tx.oldestPn)
    tx.oldestPn
  have hold := h.oldest
  refine ⟨?_, ?_, h.acked, h.probed, h.ordered, ?_⟩
  · simp only [Sending.advanceOldest]
    omega
  · intro pn f hf
    simp only [Sending.advanceOldest] at hf ⊢
    obtain ⟨h₁, h₂⟩ := h.flying pn f hf
    refine ⟨?_, h₂⟩
    by_contra hlt
    rw [hnone pn h₁ (by omega)] at hf
    cases hf
  · intro r hr
    obtain ⟨h₁, h₂, h₃, h₄⟩ := h.floored r hr
    refine ⟨h₁, h₂, ?_, h₄⟩
    simp only [Sending.advanceOldest]
    omega

theorem detectLoss (h : Numbered tx sent) (t : ℚ) : Numbered (tx.detectLoss t) sent := by
  have h₁ : Numbered { tx with lossTime := ⊤ } sent :=
    Stream.Numbered.shrink h (Sending.Shrinks.of_eq rfl rfl rfl rfl rfl)
  have h₂ := h₁.advanceOldest
  unfold Sending.detectLoss
  dsimp only
  generalize Sending.advanceOldest { tx with lossTime := ⊤ } = tx₁ at h₂ ⊢
  exact (h₂.shrink ((Sending.scanPackets_shrinks t _ _ _ { tx := tx₁ }).trans
    (Sending.cutWindow_shrinks t _))).advanceOldest

/-- The largest number acked moves to one that was sent. -/
theorem acked_max (h : Numbered tx sent) {largest : Int} (hl : largest < tx.nextPn) :
    Numbered { tx with largestAcked := max tx.largestAcked largest } sent where
  oldest := h.oldest
  flying := h.flying
  acked := max_lt h.acked hl
  probed := h.probed
  ordered := h.ordered
  floored := h.floored

end Numbered

/-- `onAck` from the suspects up to the search for losses. -/
def Sending.learns (tx : Sending) (now : ℚ) (delay : Nat) (largest : Int)
    (newest : Option Flight) (ranges : List (Nat × Nat)) : Sending :=
  let tx := tx.clearSuspects ranges
  let tx := { tx with largestAcked := max tx.largestAcked largest }.advanceOldest
  match newest with
  | some f => tx.sample (now - f.time) delay
  | none => tx

theorem Numbered.learns {tx : Sending} {sent : List (Nat × Nat)} (h : Numbered tx sent) (now : ℚ)
    (delay : Nat) {largest : Int} (hl : largest < tx.nextPn) (newest : Option Flight)
    (ranges : List (Nat × Nat)) : Numbered (tx.learns now delay largest newest ranges) sent := by
  have hclear := Sending.clearSuspects_shrinks tx ranges
  have hlargest : largest < (tx.clearSuspects ranges).nextPn := by
    rw [hclear.nextPn]
    exact hl
  have h₁ := ((h.shrink hclear).acked_max hlargest).advanceOldest
  unfold Sending.learns
  cases newest with
  | none => exact h₁
  | some f => exact h₁.shrink (Sending.sample_shrinks _ _ _)

namespace UdpStream

/-! What only acks, reads or stops leaves the desk as it was. -/

theorem says_desk {s s' : UdpStream} (ps : List Packet) (ht : s'.tx = s.tx)
    (he : s'.emitted = s.emitted ++ ps) (hp : floors ps = []) : s'.desk = s.desk := by
  simp only [desk, ht, he, floors_append, hp, List.append_nil]

theorem sendAck_desk (s : UdpStream) (now : ℚ) : (s.sendAck now).desk = s.desk := by
  unfold sendAck
  split
  · rfl
  · dsimp only
    split
    · exact says_desk [_, _, _] rfl (by simp only [emit, List.append_assoc]; rfl) rfl
    · exact says_desk _ rfl rfl rfl

theorem fail_desk (s : UdpStream) (why : Cause) : (s.fail why).desk = s.desk := by
  unfold fail
  split <;> rfl

theorem endStream_desk (s : UdpStream) (now : ℚ) (why : Cause) :
    (s.endStream now why).desk = s.desk := by
  unfold endStream
  split
  · rfl
  · rw [fail_desk]
    unfold sendClose
    split
    · exact says_desk [_, _, _] rfl (by simp only [emit, List.append_assoc]; rfl) rfl
    · rfl

theorem arm_desk (s : UdpStream) : s.arm.desk = s.desk := by
  unfold arm
  split
  · rfl
  · split <;> rfl

theorem deliver_desk (s : UdpStream) (now : ℚ) : (s.deliver now).desk = s.desk := by
  have hgrant : (s.handOver.grant now).desk = s.desk := by
    unfold grant handOver
    dsimp only
    split <;> split <;> rfl
  unfold deliver
  dsimp only
  split
  · rw [sendAck_desk, hgrant]
  · exact hgrant

theorem turn_desk (s : UdpStream) (now : ℚ) : (s.turn now).desk = s.desk := by
  unfold turn
  dsimp only
  split
  · rw [sendAck_desk, deliver_desk]
    rfl
  · rw [deliver_desk]
    rfl

theorem received_desk (s : UdpStream) (now : ℚ) (pn : Nat) : (s.received now pn).desk = s.desk := by
  unfold received queueTurn
  dsimp only
  split
  · exact sendAck_desk { s with rx := { s.rx with
      ranges := record s.rx.ranges pn
      largestAt := _ } } now
  · rfl

theorem onChunk_desk (s : UdpStream) (now : ℚ) (pn o floor : Nat) (bs : Bytes) :
    (s.onChunk now pn o floor bs).desk = s.desk := by
  unfold onChunk
  split
  · rfl
  · dsimp only
    split
    · rw [fail_desk]
      exact received_desk s now pn
    · exact received_desk s now pn

theorem tick_desk (s : UdpStream) (now t : ℚ) : (s.tick now t).desk = s.desk := by
  unfold tick
  split
  · exact fail_desk _ _
  · split
    · exact endStream_desk _ _ _
    · dsimp only
      split
      · exact sendAck_desk s now
      · rfl

/-! What sends packets, or takes in an ack. -/

/-- The numbers of a stream whose sending half becomes `tx`. -/
theorem numbered_with {s : UdpStream} {tx : Sending} (h : Stream.Numbered tx (floors s.emitted)) :
    ({ s with tx := tx } : UdpStream).Numbered := h

theorem shrink_numbered {s : UdpStream} (h : s.Numbered) {tx : Sending} (hs : s.tx.Shrinks tx) :
    ({ s with tx := tx } : UdpStream).Numbered := numbered_with (Stream.Numbered.shrink h hs)

theorem sendChunk_numbered {s : UdpStream} (h : s.Numbered) (now : ℚ) (o : Nat) (c : Bytes) :
    (s.sendChunk now o c).Numbered := by
  have hold : s.tx.oldestPn ≤ s.tx.nextPn := h.oldest
  have hfloor : ∃ floor, floors (s.sendChunk now o c).emitted =
      floors s.emitted ++ [(s.tx.nextPn, floor)] ∧
      floor ≤ s.tx.oldestPn ∧ ∀ q ∈ s.tx.probes, floor ≤ q := by
    simp only [sendChunk, emit, floors_append]
    cases hp : s.tx.probes with
    | nil => exact ⟨_, rfl, Nat.le_refl _, fun q hq => (by cases hq)⟩
    | cons probe probes =>
      refine ⟨_, rfl, Nat.min_le_left _ _, fun q hq => ?_⟩
      have hord : (probe :: probes).Pairwise (· < ·) := hp ▸ h.ordered
      dsimp only
      rcases List.mem_cons.mp hq with rfl | hq
      · exact Nat.min_le_right _ _
      · have := List.rel_of_pairwise_cons hord hq
        omega
  obtain ⟨floor, hfloors, hle, hprobes⟩ := hfloor
  refine ⟨?_, ?_, ?_, ?_, h.ordered, ?_⟩
  · show s.tx.oldestPn ≤ s.tx.nextPn + 1
    omega
  · intro pn f hf
    show s.tx.oldestPn ≤ pn ∧ pn < s.tx.nextPn + 1
    have hf : (s.tx.inFlight.set s.tx.nextPn _).get pn = some f := hf
    rw [OrdMap.get_set] at hf
    split at hf
    · omega
    · have hk := h.flying pn f hf
      omega
  · show s.tx.largestAcked < (s.tx.nextPn + 1 : Nat)
    have hk := h.acked
    omega
  · intro q hq
    show q < s.tx.nextPn + 1
    have hk := h.probed q hq
    omega
  · intro r hr
    show r.2 ≤ r.1 ∧ r.1 < s.tx.nextPn + 1 ∧ r.2 ≤ s.tx.oldestPn ∧ ∀ q ∈ s.tx.probes, r.2 ≤ q
    rw [hfloors, List.mem_append, List.mem_singleton] at hr
    rcases hr with hr | rfl
    · have hk := h.floored r hr
      exact ⟨hk.1, by omega, hk.2.2⟩
    · exact ⟨by dsimp only; omega, by dsimp only; omega, hle, hprobes⟩

theorem flushLoop_numbered (now : ℚ) (n probes : Nat) {s : UdpStream} (h : s.Numbered) :
    (flushLoop now n probes s).Numbered := by
  induction n generalizing probes s with
  | zero => exact h
  | succ n ih =>
    have hnext := Sending.nextChunk_shrinks s.tx (decide (probes > 0))
    unfold flushLoop
    split
    · exact shrink_numbered h (Sending.Shrinks.of_eq rfl rfl rfl rfl rfl)
    · split
      · rename_i tx he
        rw [he] at hnext
        exact shrink_numbered h (hnext.trans (Sending.Shrinks.of_eq rfl rfl rfl rfl rfl))
      · rename_i tx o he
        rw [he] at hnext
        exact ih _ (sendChunk_numbered (s := { s with tx := tx }) (shrink_numbered h hnext) now o _)

theorem flush_numbered {s : UdpStream} (h : s.Numbered) (now : ℚ) (probes : Nat) :
    (s.flush now probes).Numbered := by
  unfold flush
  split
  · exact h
  · exact (flushLoop_numbered now _ probes h).frame (arm_desk _)

theorem sendProbe_numbered {s : UdpStream} (h : s.Numbered) (now : ℚ) :
    (s.sendProbe now).Numbered := by
  unfold sendProbe
  dsimp only
  split
  · exact h
  · split
    · exact shrink_numbered h ⟨rfl, rfl, rfl, List.nil_sublist _, fun _ _ hf => hf⟩
    · have hold := h.oldest
      refine ⟨?_, ?_, ?_, ?_, ?_, ?_⟩
      · show s.tx.oldestPn ≤ s.tx.nextPn + 1
        omega
      · intro pn f hf
        have hk := h.flying pn f hf
        show s.tx.oldestPn ≤ pn ∧ pn < s.tx.nextPn + 1
        omega
      · have hk := h.acked
        show s.tx.largestAcked < (s.tx.nextPn + 1 : Nat)
        omega
      · intro q hq
        show q < s.tx.nextPn + 1
        rcases List.mem_append.mp hq with hq | hq
        · have hk := h.probed q hq
          omega
        · rw [List.mem_singleton.mp hq]
          omega
      · exact List.pairwise_append.mpr ⟨h.ordered, List.pairwise_singleton _ _, fun q hq k hk => by
          rw [List.mem_singleton.mp hk]
          exact h.probed q hq⟩
      · intro r hr
        have hsame : floors (s.emitted ++ [.probe s.tx.nextPn]) = floors s.emitted := by
          rw [floors_append]
          exact List.append_nil _
        have hr : r ∈ floors (s.emitted ++ [.probe s.tx.nextPn]) := hr
        rw [hsame] at hr
        have hk := h.floored r hr
        show r.2 ≤ r.1 ∧ r.1 < s.tx.nextPn + 1 ∧ r.2 ≤ s.tx.oldestPn ∧
          ∀ q ∈ s.tx.probes ++ [s.tx.nextPn], r.2 ≤ q
        refine ⟨hk.1, by omega, hk.2.2.1, fun q hq => ?_⟩
        rcases List.mem_append.mp hq with hq | hq
        · exact hk.2.2.2 q hq
        · rw [List.mem_singleton.mp hq]
          omega

theorem startProbe_numbered {s : UdpStream} (h : s.Numbered) (now : ℚ) :
    (s.startProbe now).Numbered :=
  sendProbe_numbered (s := { s with tx := { s.tx with probes := [] } })
    (shrink_numbered h ⟨rfl, rfl, rfl, List.nil_sublist _, fun _ _ hf => hf⟩) now

theorem probeAcked_numbered {s : UdpStream} (h : s.Numbered) (ranges : List (Nat × Nat)) :
    (s.probeAcked ranges).Numbered := by
  unfold probeAcked
  split
  · exact shrink_numbered h ⟨rfl, rfl, rfl, List.nil_sublist _, fun _ _ hf => hf⟩
  · exact h

/-- The number an ack's first range ends at, of those sent. -/
def largestOf (s : UdpStream) (first : Nat × Nat) : Int :=
  min (first.1 : Int) ((s.tx.nextPn : Int) - 1)

/-- `onAck` up to the probes: what the ranges name is out of flight. -/
def tookAcks (s : UdpStream) (first : Nat × Nat) (ranges : List (Nat × Nat)) : UdpStream :=
  let s₁ := { s with tx := (ackNamed s.tx (s.largestOf first) ranges).1 }
  if s₁.tx.probes.length > 0 then s₁.probeAcked ranges else s₁

/-- The sender as `onAck` looks for losses. -/
def beforeLoss (s : UdpStream) (now : ℚ) (delay : Nat) (first : Nat × Nat)
    (ranges : List (Nat × Nat)) : Sending :=
  (s.tookAcks first ranges).tx.learns now delay (s.largestOf first)
    (ackNamed s.tx (s.largestOf first) ranges).2 ranges

/-- `onAck` once it has looked for losses. -/
def afterLoss (s : UdpStream) (now : ℚ) : UdpStream :=
  if s.tx.reprobe ∧ s.tx.ptoCount = 0 then
    { s with tx := { s.tx with reprobe := false } }.startProbe now
  else s

theorem onRanges_eq (s : UdpStream) (now : ℚ) (delay : Nat) (first : Nat × Nat)
    (ranges : List (Nat × Nat)) : s.onRanges now delay first ranges =
      { s.tookAcks first ranges with
        tx := (s.beforeLoss now delay first ranges).detectLoss now }.afterLoss now := by
  unfold onRanges beforeLoss Sending.learns tookAcks largestOf afterLoss
  rfl

theorem tookAcks_numbered {s : UdpStream} (h : s.Numbered) (first : Nat × Nat)
    (ranges : List (Nat × Nat)) : (s.tookAcks first ranges).Numbered ∧
      (s.tookAcks first ranges).tx.nextPn = s.tx.nextPn := by
  have hacked := Sending.ackNamed_shrinks s.tx (s.largestOf first) ranges
  have h₁ := shrink_numbered h hacked
  unfold tookAcks
  dsimp only
  split
  · refine ⟨probeAcked_numbered h₁ ranges, ?_⟩
    unfold probeAcked
    split <;> exact hacked.nextPn
  · exact ⟨h₁, hacked.nextPn⟩

theorem beforeLoss_numbered {s : UdpStream} (h : s.Numbered) (now : ℚ) (delay : Nat)
    (first : Nat × Nat) (ranges : List (Nat × Nat)) :
    Stream.Numbered (s.beforeLoss now delay first ranges)
      (floors (s.tookAcks first ranges).emitted) := by
  obtain ⟨h₁, hnext⟩ := tookAcks_numbered h first ranges
  refine Stream.Numbered.learns h₁ now delay ?_ _ ranges
  rw [hnext]
  unfold largestOf
  omega

theorem afterLoss_numbered {s : UdpStream} (h : s.Numbered) (now : ℚ) :
    (s.afterLoss now).Numbered := by
  unfold afterLoss
  split
  · exact startProbe_numbered (s := { s with tx := { s.tx with reprobe := false } })
      (shrink_numbered h (Sending.Shrinks.of_eq rfl rfl rfl rfl rfl)) now
  · exact h

theorem onRanges_numbered {s : UdpStream} (h : s.Numbered) (now : ℚ) (delay : Nat)
    (first : Nat × Nat) (ranges : List (Nat × Nat)) :
    (s.onRanges now delay first ranges).Numbered := by
  rw [onRanges_eq]
  exact afterLoss_numbered (numbered_with
    ((beforeLoss_numbered h now delay first ranges).detectLoss now)) now

theorem buffered_numbered {s : UdpStream} (h : s.Numbered) :
    ({ s with tx := s.tx.buffered.1 } : UdpStream).Numbered :=
  shrink_numbered h (Sending.oldestChunk_shrinks s.tx)

theorem afterAck_numbered {s : UdpStream} (h : s.Numbered) (now : ℚ) :
    (s.afterAck now).Numbered := by
  unfold afterAck
  split
  · dsimp only
    split
    · exact (buffered_numbered h).frame (endStream_desk _ _ _)
    · exact flush_numbered (buffered_numbered h) now 0
  · exact flush_numbered h now 0

theorem onAck_numbered {s : UdpStream} (h : s.Numbered) (now : ℚ) (credit delay : Nat)
    (ranges : List (Nat × Nat)) : (s.onAck now credit delay ranges).Numbered := by
  have hcredit : (s.credited credit).Numbered :=
    shrink_numbered h (Sending.Shrinks.of_eq rfl rfl rfl rfl rfl)
  cases ranges with
  | nil => exact afterAck_numbered hcredit now
  | cons first rest => exact afterAck_numbered (onRanges_numbered hcredit now delay first _) now

theorem onRecovery_numbered {s : UdpStream} (h : s.Numbered) (now t : ℚ) :
    (s.onRecovery now t).Numbered := by
  have hlate : ({ s with recoveryAt := ⊤ } : UdpStream).Numbered := h
  unfold onRecovery
  dsimp only
  split
  · exact h
  · split
    · exact hlate.frame (arm_desk _)
    · split
      · exact flush_numbered (numbered_with (s := { s with recoveryAt := ⊤ })
          (Stream.Numbered.detectLoss h t)) now 0
      · split
        · exact hlate.frame (endStream_desk _ _ _)
        · exact flush_numbered (shrink_numbered hlate (Sending.timeout_shrinks s.tx)) now 2

theorem onWake_numbered {s : UdpStream} (h : s.Numbered) (now t : ℚ) :
    (s.onWake now t).Numbered := by
  unfold onWake
  split
  · exact h
  · split
    · exact h.frame (endStream_desk _ _ _)
    · dsimp only
      have h₁ : (if (t : WithTop ℚ) ≥ s.liveAt then s.tick now t else s).Numbered := by
        split
        · exact h.frame (tick_desk _ _ _)
        · exact h
      generalize (if (t : WithTop ℚ) ≥ s.liveAt then s.tick now t else s) = s₁ at h₁ ⊢
      have h₂ : (if ¬s₁.gone = true ∧ (t : WithTop ℚ) ≥ s₁.recoveryAt then s₁.onRecovery now t
          else s₁).Numbered := by
        split
        · exact onRecovery_numbered h₁ now t
        · exact h₁
      generalize (if ¬s₁.gone = true ∧ (t : WithTop ℚ) ≥ s₁.recoveryAt then s₁.onRecovery now t
        else s₁) = s₂ at h₂ ⊢
      split
      · exact sendProbe_numbered h₂ now
      · exact h₂

theorem start_numbered {s : UdpStream} (h : s.Numbered) (now : ℚ) : (s.start now).Numbered := by
  unfold start
  split
  · exact h
  · dsimp only
    have hflush : ∀ s₁ : UdpStream, s₁.Numbered → ({ s₁.flush now 0 with
        tx := { (s₁.flush now 0).tx with reprobe := true } } : UdpStream).Numbered := fun s₁ h₁ =>
      shrink_numbered (flush_numbered h₁ now 0) (Sending.Shrinks.of_eq rfl rfl rfl rfl rfl)
    refine hflush _ ?_
    split
    · exact h.frame (sendAck_desk _ _)
    · exact h

theorem repath_numbered {s : UdpStream} (h : s.Numbered) (now rttMs : ℚ) :
    (s.repath now rttMs).Numbered := by
  unfold repath
  split
  · exact h
  · exact startProbe_numbered (flush_numbered
      ((shrink_numbered h (Sending.rerouted_shrinks s.tx now rttMs)).frame (sendAck_desk _ _)) now 0) now

theorem send_numbered {s : UdpStream} (h : s.Numbered) (now : ℚ) (bytes : Bytes) :
    (s.send now bytes).1.Numbered := by
  have hleft := buffered_numbered h
  unfold send
  split
  · exact h
  · dsimp only
    split
    · exact hleft
    · split
      · exact hleft
      · refine flush_numbered ?_ now 0
        exact Stream.Numbered.shrink hleft (Sending.Shrinks.of_eq rfl rfl rfl rfl rfl)

theorem close_numbered {s : UdpStream} (h : s.Numbered) (now : ℚ) (graceful : Bool) :
    (s.close now graceful).Numbered := by
  have hleft := buffered_numbered h
  unfold close
  split
  · exact h
  · split
    · dsimp only
      split
      · exact hleft
      · exact hleft.frame (endStream_desk _ _ _)
    · exact h.frame (endStream_desk _ _ _)

theorem call_numbered {s : UdpStream} (h : s.Numbered) (now : ℚ) (c : Call) :
    (s.call now c).Numbered := by
  cases c with
  | start => exact start_numbered h now
  | send bytes => exact send_numbered h now bytes
  | reader => exact h.frame (deliver_desk { s with read := true } now)
  | readDone => exact h.frame (deliver_desk { s with reading := false } now)
  | turn => exact h.frame (turn_desk s now)
  | wake t => exact onWake_numbered h now t
  | repath rttMs => exact repath_numbered h now rttMs
  | close graceful => exact close_numbered h now graceful
  | cut => exact h.frame (endStream_desk _ _ _)

theorem receive_numbered {s : UdpStream} (h : s.Numbered) (now : ℚ) (p : Bytes) :
    (s.receive now p).Numbered := by
  have hheard : ({ s with lastHeard := now } : UdpStream).Numbered := h
  unfold receive
  split
  · exact h
  · dsimp only
    split
    · exact hheard.frame (onChunk_desk _ _ _ _ _ _)
    · exact onAck_numbered hheard now _ _ _
    · exact hheard.frame (received_desk _ _ _)
    · exact hheard.frame (fail_desk _ _)
    · exact hheard

end UdpStream

theorem Run.numbered {s : UdpStream} (h : Run s) : s.Numbered := by
  induction h with
  | new => exact ⟨Nat.le_refl 0, fun _ _ hf => (nomatch hf), (by decide : (-1 : Int) < 0),
      fun _ hq => (nomatch hq), List.Pairwise.nil, fun _ hr => (nomatch hr)⟩
  | call _ now c ih => exact UdpStream.call_numbered ih now c
  | receive _ now p ih => exact UdpStream.receive_numbered ih now p

end SeedTransport.Stream
