import Mathlib
import SeedTransport.Stream.Net

set_option autoImplicit false

namespace SeedTransport.Stream

/-! A sender never stalls: between calls, what is not acked is in flight under a timer, or
waits for credit. -/

namespace Sending

/-- A flush that finds nothing to send has no chunk left among the lost. -/
theorem nextLost_none (offsets : List Nat) (tx : Sending) (h : (tx.nextLost offsets).2 = none) :
    ∃ lost, (tx.nextLost offsets).1 = { tx with lost := lost } ∧
      (∀ k, lost.get k = some () → tx.lost.get k = some ()) ∧
      ∀ o ∈ offsets, tx.chunks.get o = none := by
  induction offsets generalizing tx with
  | nil => exact ⟨tx.lost, rfl, fun _ hk => hk, List.forall_mem_nil _⟩
  | cons offset rest ih =>
    cases hc : tx.chunks.get offset with
    | some chunk =>
      rw [nextLost_kept rest hc] at h
      cases h
    | none =>
      rw [nextLost_acked rest hc] at h ⊢
      obtain ⟨lost, he, hsub, hnone⟩ := ih _ h
      refine ⟨lost, ?_, ?_, ?_⟩
      · rw [he]
      · intro k hk
        have h' := hsub k hk
        simp only [OrdMap.get_delete] at h'
        split at h'
        · cases h'
        · exact h'
      · rw [List.forall_mem_cons]
        exact ⟨hc, hnone⟩

/-- What a flush stops on when it is not the window. -/
structure Spent (tx : Sending) : Prop where
  lost : ∀ o c, tx.chunks.get o = some c → tx.lost.get o = none
  fresh : tx.fresh = 0

theorem nextChunk_none (tx : Sending) (probe : Bool) (hh : tx.sentHead ≤ tx.sentOffsets.length)
    (h : (tx.nextChunk probe).2 = none) : Spent (tx.nextChunk probe).1 := by
  have hlost := nextLost_none tx.lost.keys tx
  have hcases := nextChunk_cases tx probe
  generalize tx.nextLost tx.lost.keys = r at hlost hcases
  obtain ⟨tx', offset⟩ := r
  dsimp only at hlost hcases
  rcases hcases with ⟨o, rfl, he⟩ | ⟨rfl, ⟨-, he⟩ | ⟨-, -, o, -, he⟩ | ⟨hf, he⟩⟩
  · rw [he] at h; cases h
  · rw [he] at h; cases h
  · rw [he] at h; cases h
  · obtain ⟨lost, rfl, hsub, hnone⟩ := hlost rfl
    have hspent : ∀ o c, tx.chunks.get o = some c → lost.get o = none := by
      intro o c hc
      rw [Option.eq_none_iff_forall_ne_some]
      intro u hu
      have := hnone o ((OrdMap.mem_keys _ _).mpr ⟨(), hsub o hu⟩)
      rw [hc] at this
      cases this
    rw [he]
    cases probe with
    | false => exact ⟨hspent, hf⟩
    | true =>
      obtain ⟨offsets, head, hold, -, -, -, -⟩ := oldestChunk_spec { tx with lost := lost } hh
      rw [if_pos rfl, hold]
      exact ⟨hspent, hf⟩

end Sending

namespace UdpStream

open Sending

/-- Splitting a chunk pays for the piece it adds to the lost. -/
theorem flushBound_fit (tx : Sending) {o : Nat} {c : Bytes} (hc : tx.chunks.get o = some c)
    (hroom : 0 < tx.packetBytes - dataHeader) : flushBound (tx.fit o c) ≤ flushBound tx := by
  unfold fit
  dsimp only
  split
  · exact Nat.le_refl _
  · rename_i hlt
    unfold flushBound
    dsimp only
    have h₁ := tx.lost.size_set_le (o + (tx.packetBytes - dataHeader)) ()
    have h₂ := (tx.chunks.set o (c.take (tx.packetBytes - dataHeader))).sum_delete_le
      (fun e => e.2.length - 1) (o + (tx.packetBytes - dataHeader))
    have h₃ := tx.chunks.sum_delete (fun e => e.2.length - 1) o c hc
    rw [OrdMap.sum_set] at h₂ ⊢
    dsimp only at h₂ h₃ ⊢
    rw [List.length_take] at h₂
    rw [List.length_drop]
    omega

/-- A lost chunk taken up is one lost chunk less. -/
theorem flushBound_nextLost (offsets : List Nat) (tx : Sending) (hn : offsets.Nodup)
    (hm : ∀ o ∈ offsets, o ∈ tx.lost.keys) (hroom : 0 < tx.packetBytes - dataHeader) :
    flushBound (tx.nextLost offsets).1 + (if (tx.nextLost offsets).2.isSome then 1 else 0) ≤
      flushBound tx := by
  induction offsets generalizing tx with
  | nil => exact Nat.le_refl _
  | cons offset rest ih =>
    obtain ⟨v, hv⟩ := (OrdMap.mem_keys _ _).mp (hm offset List.mem_cons_self)
    have hsize := tx.lost.size_delete hv
    have hdel : flushBound { tx with lost := tx.lost.delete offset } + 1 = flushBound tx := by
      unfold flushBound
      dsimp only
      omega
    rw [List.nodup_cons] at hn
    cases hc : tx.chunks.get offset with
    | some chunk =>
      rw [nextLost_kept rest hc]
      have hfit := flushBound_fit { tx with lost := tx.lost.delete offset } hc hroom
      simp only [Option.isSome_some, if_true]
      omega
    | none =>
      rw [nextLost_acked rest hc]
      have h := ih { tx with lost := tx.lost.delete offset } hn.2 (by
        intro o ho
        have hne : o ≠ offset := fun e => hn.1 (e ▸ ho)
        obtain ⟨w, hw⟩ := (OrdMap.mem_keys _ _).mp (hm o (List.mem_cons_of_mem _ ho))
        exact (OrdMap.mem_keys _ _).mpr ⟨w, by rw [OrdMap.get_delete, if_neg hne]; exact hw⟩) hroom
      omega

theorem flushBound_cutChunk (tx : Sending) (hf : 0 < tx.fresh) :
    flushBound tx.cutChunk + 1 ≤ flushBound tx := by
  have hle : tx.fresh ≤ tx.unsent.bytes := Nat.min_le_left _ _
  have h := tx.chunks.sum_delete_le (fun e => e.2.length - 1) tx.nextOffset
  unfold flushBound cutChunk
  dsimp only
  rw [OrdMap.sum_set]
  dsimp only
  have hlen : (tx.unsent.take tx.fresh).1.length = tx.fresh := by
    rw [Pieces.take_fst, List.length_take]
    exact Nat.min_eq_left hle
  rw [hlen, Pieces.bytes_take]
  omega

/-- Every packet a flush sends brings its end nearer, one for a probe by the probe it spends. -/
theorem flushBound_nextChunk (s : UdpStream) (hg : s.gone = false) (tx : Sending) (probe : Bool)
    (hl : (s.books tx).TxFair) (h : (tx.nextChunk probe).2 ≠ none) :
    flushBound (tx.nextChunk probe).1 + (if probe then 0 else 1) ≤ flushBound tx := by
  have hlost := flushBound_nextLost tx.lost.keys tx tx.lost.nodup (fun _ h => h) hl.room_pos
  have hsteps := (nextLost_steps none s hg tx.lost.keys tx hl.head hl.room_pos).1
  have hcases := nextChunk_cases tx probe
  generalize tx.nextLost tx.lost.keys = r at hlost hcases hsteps
  obtain ⟨tx', offset⟩ := r
  dsimp only at hlost hcases hsteps
  rcases hcases with ⟨o, rfl, he⟩ | ⟨rfl, ⟨hf, he⟩ | ⟨-, rfl, o, ho, he⟩ | ⟨-, he⟩⟩
  · rw [he]
    simp only [Option.isSome_some, if_true] at hlost
    dsimp only
    split <;> omega
  · rw [he]
    have hcut := flushBound_cutChunk tx' hf
    dsimp only
    split <;> omega
  · have hl' : (s.books tx').TxFair := hl.steps hsteps
    obtain ⟨offsets, head, hold, -, hhead, -, hfound⟩ := oldestChunk_spec tx' hl'.head
    obtain ⟨c, hc⟩ := hfound o (hhead ▸ ho)
    rw [hold] at he
    rw [he, show ({ tx' with sentOffsets := offsets, sentHead := head } : Sending).chunks.get o =
      some c from hc, Option.getD_some]
    have hfit := flushBound_fit { tx' with sentOffsets := offsets, sentHead := head } hc
      hl'.room_pos
    exact Nat.le_trans hfit hlost
  · rw [he] at h
    exact absurd rfl h

/-- Where a flush stops. -/
def Stopped (tx : Sending) : Prop :=
  ((tx.bytesInFlight : ℚ) + tx.packetBytes > tx.window) ∨ Spent tx

theorem flushLoop_stopped (now : ℚ) (n probes : Nat) (s : UdpStream)
    (hg : s.gone = false) (hl : s.ledger.TxFair) (hn : flushBound s.tx + probes < n) : Stopped (flushLoop now n probes s).tx := by
  induction n generalizing probes s with
  | zero => exact absurd hn (Nat.not_lt_zero _)
  | succ n ih =>
    unfold flushLoop
    split
    · rename_i h
      exact Or.inl h.2
    · obtain ⟨hnext, hgot⟩ := nextChunk_steps none s hg s.tx (decide (probes > 0)) hl
      have hbound := flushBound_nextChunk s hg s.tx (decide (probes > 0)) hl
      have hnone := nextChunk_none s.tx (decide (probes > 0)) hl.head
      generalize s.tx.nextChunk (decide (probes > 0)) = r at hnext hgot hbound hnone
      obtain ⟨tx, offset⟩ := r
      cases offset with
      | none =>
        obtain ⟨h₁, h₂⟩ := hnone rfl
        exact Or.inr ⟨h₁, h₂⟩
      | some offset =>
        obtain ⟨c, hc⟩ := hgot offset rfl
        dsimp only at hc hbound ⊢
        rw [hc, Option.getD_some]
        have hsent : Ledger.Steps none s.ledger (sendChunk { s with tx := tx } now offset c).ledger :=
          Relation.ReflTransGen.trans hnext (sendChunk_steps none s tx now hc)
        refine ih _ _ hg (hl.steps hsent) ?_
        have hb := hbound (Option.some_ne_none _)
        change flushBound tx + (probes - 1) < n
        rcases Nat.eq_zero_or_pos probes with h0 | h0
        · simp only [h0, gt_iff_lt, Nat.lt_irrefl, decide_false, Bool.false_eq_true, if_false] at hb
          omega
        · omega

end UdpStream

/-- What a stall would show in. -/
structure Pace where
  out : Bool
  chunks : OrdMap Nat Bytes
  inFlight : OrdMap Nat Flight
  unsent : Pieces
  nextOffset : Nat
  peerCredit : Nat
  recoveryDue : WithTop ℚ
  recoveryAt : WithTop ℚ

def UdpStream.pace (s : UdpStream) : Pace where
  out := s.out
  chunks := s.tx.chunks
  inFlight := s.tx.inFlight
  unsent := s.tx.unsent
  nextOffset := s.tx.nextOffset
  peerCredit := s.tx.peerCredit
  recoveryDue := s.tx.recoveryDue
  recoveryAt := s.recoveryAt

/-- What is kept has a packet in flight, a packet in flight has a timer that is not late, and
with none in flight what is unsent waits for credit. -/
structure Pace.Awake (p : Pace) : Prop where
  flying : (∃ o c, p.chunks.get o = some c) → p.inFlight.size ≠ 0
  armed : p.inFlight.size ≠ 0 → p.recoveryAt < ⊤ ∧ p.recoveryAt ≤ p.recoveryDue
  starved : p.inFlight.size = 0 → 0 < p.unsent.bytes → p.peerCredit ≤ p.nextOffset

/-- Once started and until it stops. -/
def Awake (s : UdpStream) : Prop := s.out = true → s.gone = false → s.pace.Awake

theorem Awake.frame {s s' : UdpStream} (h : Awake s) (hp : s'.pace = s.pace)
    (hg : s'.gone = false → s.gone = false) : Awake s' := by
  intro hout hgone
  rw [hp]
  exact h ((congrArg Pace.out hp).symm.trans hout) (hg hgone)

theorem Awake.of_gone {s : UdpStream} (h : s.gone = true) : Awake s := by
  intro _ hgone
  rw [h] at hgone
  cases hgone

theorem Sending.recoveryDue_lt (tx : Sending) : tx.recoveryDue < ⊤ := by
  unfold Sending.recoveryDue
  split
  · assumption
  · exact WithTop.coe_lt_top _

namespace UdpStream

open Sending

theorem fail_gone (s : UdpStream) (why : Cause) : (s.fail why).gone = true := by
  unfold fail
  split
  · assumption
  · rfl

theorem endStream_gone (s : UdpStream) (now : ℚ) (why : Cause) :
    (s.endStream now why).gone = true := by
  unfold endStream
  split
  · assumption
  · exact fail_gone _ _

/-- Nothing sent past the window's limit is sent out of an empty flight. -/
theorem Stopped.quiet {s : UdpStream} (h : Stopped s.tx) (hl : s.ledger.TxFair) :
    ((∃ o c, s.tx.chunks.get o = some c) → s.tx.inFlight.size ≠ 0) ∧
      (s.tx.inFlight.size = 0 → 0 < s.tx.unsent.bytes → s.tx.peerCredit ≤ s.tx.nextOffset) := by
  rcases h with hw | hspent
  · have hsize : s.tx.inFlight.size ≠ 0 := by
      intro h0
      have hzero : s.tx.bytesInFlight = 0 := by
        have hweight : s.tx.bytesInFlight = s.tx.inFlight.sum (fun e => e.2.size) := hl.weight
        rw [hweight, OrdMap.sum, List.length_eq_zero_iff.mp h0]
        rfl
      have hwin : minWindow ≤ s.tx.window := hl.window
      have hpb : s.tx.packetBytes ≤ 1452 := by
        have hsized : Ledger.Sized s.tx.packetBytes := hl.sized
        rcases hsized with e | e <;> rw [e] <;> decide
      have hpb' : (s.tx.packetBytes : ℚ) ≤ 1452 := by exact_mod_cast hpb
      rw [hzero] at hw
      simp only [minWindow, basePacket] at hwin
      push_cast at hw hwin
      linarith
    exact ⟨fun _ => hsize, fun h0 => absurd h0 hsize⟩
  · refine ⟨?_, ?_⟩
    · rintro ⟨o, c, hc⟩
      rcases hl.homed o c hc (Option.some_ne_none o).symm with hlost | ⟨pn, f, hf, -⟩
      · have := hspent.lost o c hc
        rw [show s.tx.lost.get o = some () from hlost] at this
        cases this
      · exact (OrdMap.size_pos _).mpr ⟨pn, f, hf⟩
    · intro _ hu
      have hroom : 0 < s.tx.packetBytes - dataHeader := hl.room_pos
      have hf := hspent.fresh
      unfold fresh at hf
      omega

/-- Arming the timer wakes a stream that is awake but for the timer. -/
theorem arm_awake {s : UdpStream} (h : s.out = true → s.gone = false →
      ((∃ o c, s.tx.chunks.get o = some c) → s.tx.inFlight.size ≠ 0) ∧
      (s.tx.inFlight.size = 0 → 0 < s.tx.unsent.bytes → s.tx.peerCredit ≤ s.tx.nextOffset)) :
    Awake s.arm := by
  unfold arm
  split
  · rename_i hidle
    intro hout hgone
    obtain ⟨h₁, h₂⟩ := h hout hgone
    rcases hidle with hi | hi
    · rw [hi] at hgone
      cases hgone
    · exact ⟨h₁, fun hn => absurd hi hn, h₂⟩
  · split
    · rename_i hle
      intro hout hgone
      obtain ⟨h₁, h₂⟩ := h hout hgone
      exact ⟨h₁, fun _ => ⟨lt_of_le_of_lt hle s.tx.recoveryDue_lt, hle⟩, h₂⟩
    · intro hout hgone
      obtain ⟨h₁, h₂⟩ := h hout hgone
      exact ⟨h₁, fun _ => ⟨s.tx.recoveryDue_lt, le_refl _⟩, h₂⟩

theorem flush_awake (s : UdpStream) (now : ℚ) (probes : Nat) (hl : s.ledger.TxFair) :
    Awake (s.flush now probes) := by
  unfold flush
  split
  · rename_i h
    intro hout hgone
    rcases h with h | h
    · exact absurd hout h
    · rw [h] at hgone
      cases hgone
  · rename_i h
    have hg : s.gone = false := by simpa using fun hg => h (Or.inr hg)
    have hstop := flushLoop_stopped now (flushBound s.tx + probes + 1) probes s hg hl
      (Nat.lt_succ_self _)
    have hquiet := hstop.quiet (hl.steps (flushLoop_steps none now _ probes s hg hl))
    exact arm_awake (fun _ _ => hquiet)

theorem sendAck_pace (s : UdpStream) (now : ℚ) :
    (s.sendAck now).pace = s.pace ∧ (s.sendAck now).gone = s.gone := by
  unfold sendAck
  split
  · exact ⟨rfl, rfl⟩
  · dsimp only
    split <;> exact ⟨rfl, rfl⟩

theorem sendProbe_pace (s : UdpStream) (now : ℚ) :
    (s.sendProbe now).pace = s.pace ∧ (s.sendProbe now).gone = s.gone := by
  unfold sendProbe
  dsimp only
  split
  · exact ⟨rfl, rfl⟩
  · split <;> exact ⟨rfl, rfl⟩

theorem deliver_pace (s : UdpStream) (now : ℚ) :
    (s.deliver now).pace = s.pace ∧ (s.deliver now).gone = s.gone := by
  have hgrant : (s.handOver.grant now).pace = s.pace ∧ (s.handOver.grant now).gone = s.gone := by
    unfold grant handOver
    dsimp only
    split <;> split <;> exact ⟨rfl, rfl⟩
  unfold deliver
  dsimp only
  split
  · obtain ⟨h₁, h₂⟩ := sendAck_pace (s.handOver.grant now) now
    exact ⟨h₁.trans hgrant.1, h₂.trans hgrant.2⟩
  · exact hgrant

theorem turn_pace (s : UdpStream) (now : ℚ) :
    (s.turn now).pace = s.pace ∧ (s.turn now).gone = s.gone := by
  have h := deliver_pace { s with rx := { s.rx with turnDue := false } } now
  unfold turn
  dsimp only
  split
  · obtain ⟨h₁, h₂⟩ := sendAck_pace
      (deliver { s with rx := { s.rx with turnDue := false } } now) now
    exact ⟨h₁.trans h.1, h₂.trans h.2⟩
  · exact h

theorem received_pace (s : UdpStream) (now : ℚ) (pn : Nat) :
    (s.received now pn).pace = s.pace ∧ (s.received now pn).gone = s.gone := by
  unfold received queueTurn
  dsimp only
  split
  · exact sendAck_pace { s with rx := { s.rx with
      ranges := record s.rx.ranges pn
      largestAt := _ } } now
  · exact ⟨rfl, rfl⟩

theorem buffered_pace (s : UdpStream) (hl : s.ledger.TxFair) :
    ({ s with tx := s.tx.buffered.1 } : UdpStream).pace = s.pace := by
  obtain ⟨offsets, head, he, -, -, -, -⟩ := oldestChunk_spec s.tx hl.head
  unfold buffered
  dsimp only
  rw [he]
  rfl

theorem afterAck_awake (s : UdpStream) (now : ℚ) (hl : s.ledger.TxFair) :
    Awake (s.afterAck now) := by
  unfold afterAck
  split
  · dsimp only
    split
    · exact Awake.of_gone (endStream_gone _ _ _)
    · exact flush_awake _ now 0 (hl.steps (buffered_steps none s hl))
  · exact flush_awake s now 0 hl

theorem onRecovery_awake (s : UdpStream) (now t : ℚ) (h : Awake s) (hl : s.ledger.TxFair) :
    Awake (s.onRecovery now t) := by
  unfold onRecovery
  dsimp only
  split
  · rename_i h0
    intro hout hgone
    obtain ⟨h₁, -, h₃⟩ := h hout hgone
    exact ⟨h₁, fun hn => absurd h0 hn, h₃⟩
  · split
    · refine arm_awake ?_
      intro hout hgone
      obtain ⟨h₁, -, h₃⟩ := h hout hgone
      exact ⟨h₁, h₃⟩
    · split
      · exact flush_awake _ now 0 (hl.steps (detectLoss_steps none { s with recoveryAt := ⊤ } s.tx t))
      · split
        · exact Awake.of_gone (endStream_gone _ _ _)
        · exact flush_awake _ now 2 (hl.steps (timeout_steps none { s with recoveryAt := ⊤ } s.tx))

theorem onWake_awake (s : UdpStream) (now t : ℚ) (h : Awake s) (hl : s.ledger.TxFair) :
    Awake (s.onWake now t) := by
  unfold onWake
  split
  · exact h
  · split
    · exact Awake.of_gone (endStream_gone _ _ _)
    · extract_lets s₁ s₂
      have h₁ : Awake s₁ ∧ s₁.ledger.TxFair := by
        simp only [s₁]
        split
        · refine ⟨?_, hl.steps (tick_steps none s now t)⟩
          unfold tick
          split
          · exact Awake.of_gone (fail_gone _ _)
          · split
            · exact Awake.of_gone (endStream_gone _ _ _)
            · dsimp only
              split
              · obtain ⟨hp, hg⟩ := sendAck_pace s now
                exact h.frame hp (fun hgone => hg.symm.trans hgone)
              · exact h.frame rfl id
        · exact ⟨h, hl⟩
      have h₂ : Awake s₂ := by
        simp only [s₂]
        split
        · exact onRecovery_awake s₁ now t h₁.1 h₁.2
        · exact h₁.1
      split
      · obtain ⟨hp, hg⟩ := sendProbe_pace s₂ now
        exact h₂.frame hp (fun hgone => hg.symm.trans hgone)
      · exact h₂

theorem start_awake (s : UdpStream) (now : ℚ) (h : Awake s) (hl : s.ledger.TxFair) :
    Awake (s.start now) := by
  unfold start
  split
  · exact h
  · extract_lets s₁ s₂ s₃
    have h₂ : Ledger.Steps none s.ledger s₂.ledger := by
      have h₁ : s₁.ledger = s.ledger := rfl
      rw [← h₁]
      simp only [s₂]
      split
      · exact sendAck_steps none s₁ now
      · exact Relation.ReflTransGen.refl
    exact (flush_awake s₂ now 0 (hl.steps h₂)).frame rfl id

theorem send_awake (s : UdpStream) (now : ℚ) (bytes : Bytes) (h : Awake s)
    (hl : s.ledger.TxFair) : Awake (s.send now bytes).1 := by
  unfold send
  split
  · exact h
  · rename_i hopen
    have hg : s.gone = false := by simpa using fun h => hopen (Or.inl h)
    extract_lets left s₁ src s₂
    have hs₁ : Ledger.Steps none s.ledger s₁.ledger := buffered_steps none s hl
    have h₁ : Awake s₁ := h.frame (buffered_pace s hl) id
    split
    · exact h₁
    · split
      · exact h₁
      · have h₂ : Ledger.Steps none s.ledger s₂.ledger :=
          hs₁.trans (Ledger.Steps.one (Ledger.Step.accept bytes rfl hg))
        exact flush_awake s₂ now 0 (hl.steps h₂)

theorem repath_awake (s : UdpStream) (now rttMs : ℚ) (h : Awake s) (hl : s.ledger.TxFair) :
    Awake (s.repath now rttMs) := by
  unfold repath
  split
  · exact h
  · have h₁ : Ledger.Steps none s.ledger
        ({ s with tx := s.tx.rerouted now rttMs } : UdpStream).ledger :=
      rerouted_steps none s s.tx now rttMs
    have h₂ := h₁.trans (sendAck_steps none _ now)
    have hflush := flush_awake _ now 0 (hl.steps h₂)
    obtain ⟨hp, hg⟩ := sendProbe_pace { flush (sendAck { s with tx := s.tx.rerouted now rttMs } now)
      now 0 with tx := { (flush (sendAck { s with tx := s.tx.rerouted now rttMs } now)
      now 0).tx with probes := [] } } now
    exact hflush.frame hp (fun hgone => hg.symm.trans hgone)

theorem close_awake (s : UdpStream) (now : ℚ) (graceful : Bool) (h : Awake s)
    (hl : s.ledger.TxFair) : Awake (s.close now graceful) := by
  unfold close
  split
  · exact h
  · split
    · dsimp only
      split
      · exact h.frame (buffered_pace s hl) id
      · exact Awake.of_gone (endStream_gone _ _ _)
    · exact Awake.of_gone (endStream_gone _ _ _)

theorem call_awake (s : UdpStream) (now : ℚ) (c : Call) (h : Awake s) (hl : s.ledger.TxFair) :
    Awake (s.call now c) := by
  cases c with
  | start => exact start_awake s now h hl
  | send bytes => exact send_awake s now bytes h hl
  | reader =>
    obtain ⟨hp, hg⟩ := deliver_pace { s with read := true } now
    exact h.frame hp (fun hgone => hg.symm.trans hgone)
  | readDone =>
    obtain ⟨hp, hg⟩ := deliver_pace { s with reading := false } now
    exact h.frame hp (fun hgone => hg.symm.trans hgone)
  | turn =>
    obtain ⟨hp, hg⟩ := turn_pace s now
    exact h.frame hp (fun hgone => hg.symm.trans hgone)
  | wake t => exact onWake_awake s now t h hl
  | repath rttMs => exact repath_awake s now rttMs h hl
  | close graceful => exact close_awake s now graceful h hl
  | cut => exact Awake.of_gone (endStream_gone _ _ _)

theorem receive_awake (s : UdpStream) (now : ℚ) (p : Bytes) (h : Awake s) (hs : Sane s) :
    Awake (s.receive now p) := by
  unfold receive
  split
  · exact h
  · rename_i hgone
    extract_lets s₁
    have hg : s₁.gone = false := by simpa [s₁] using hgone
    have hl : s₁.ledger.TxFair := hs.fair.tx
    have h₁ : Awake s₁ := h.frame rfl id
    split
    · rename_i pn offset floor bytes hd
      unfold onChunk
      split
      · exact h₁
      · obtain ⟨hp, hfate⟩ := received_pace s₁ now pn
        dsimp only
        split
        · exact Awake.of_gone (fail_gone _ _)
        · exact h₁.frame hp (fun hgone => hfate.symm.trans hgone)
    · rename_i credit delay ranges hd
      unfold onAck
      split
      · exact afterAck_awake _ now hl
      · rename_i first rest
        have hr : Ledger.Steps (some (.ack credit delay (first :: rest))) s₁.ledger
            ((s₁.credited credit).onRanges now delay first (first :: rest)).ledger :=
          onRanges_steps (s₁.credited credit) hg now first
        exact afterAck_awake _ now (hl.steps hr)
    · rename_i pn hd
      obtain ⟨hp, hfate⟩ := received_pace s₁ now pn
      exact h₁.frame hp (fun hgone => hfate.symm.trans hgone)
    · exact Awake.of_gone (fail_gone _ _)
    · exact h₁

end UdpStream

/-- A stream after any calls, given any bytes as packets. -/
inductive Run : UdpStream → Prop where
  | new : Run {}
  | call {s : UdpStream} (h : Run s) (now : ℚ) (c : Call) : Run (s.call now c)
  | receive {s : UdpStream} (h : Run s) (now : ℚ) (p : Bytes) : Run (s.receive now p)

theorem Run.sane {s : UdpStream} (h : Run s) : Sane s := by
  induction h with
  | new => exact Sane.init
  | call _ now c ih => exact ih.call now c
  | receive _ now p ih => exact ih.receive now p

theorem Run.awake {s : UdpStream} (h : Run s) : Awake s := by
  induction h with
  | new => exact fun hout => nomatch hout
  | call hrun now c ih => exact UdpStream.call_awake _ now c ih hrun.sane.fair.tx
  | receive hrun now p ih => exact UdpStream.receive_awake _ now p ih hrun.sane

/-- Between calls a stream that runs waits on nothing silently: each chunk kept is to be sent
again or in flight, with chunks kept a packet is in flight, a packet in flight has a wake no
later than its recovery is due, and with none in flight bytes not sent wait for credit. -/
theorem never_stalls {s : UdpStream} (h : Run s) (hout : s.out = true) (hgone : s.gone = false) :
    (∀ o ∈ s.tx.chunks.keys, o ∈ s.tx.lost.keys ∨
      ∃ pn f, s.tx.inFlight.get pn = some f ∧ f.offset = o) ∧
    (s.tx.chunks.size ≠ 0 → s.tx.inFlight.size ≠ 0) ∧
    (s.tx.inFlight.size ≠ 0 → s.recoveryAt < ⊤ ∧ s.recoveryAt ≤ s.tx.recoveryDue) ∧
    (s.tx.inFlight.size = 0 → 0 < s.tx.unsent.bytes → s.tx.nextOffset ≥ s.tx.peerCredit) := by
  obtain ⟨hflying, harmed, hstarved⟩ := h.awake hout hgone
  refine ⟨?_, ?_, harmed, hstarved⟩
  · intro o ho
    obtain ⟨c, hc⟩ := (OrdMap.mem_keys _ _).mp ho
    rcases h.sane.fair.tx.homed o c hc (Option.some_ne_none o).symm with hl | hf
    · exact Or.inl ((OrdMap.mem_keys _ _).mpr ⟨(), hl⟩)
    · exact Or.inr hf
  · intro hs
    exact hflying ((OrdMap.size_pos _).mp hs)

/-- A stream started, given three bytes, and woken past its probe timeout. -/
theorem never_stalls_woken :
    ((((({} : UdpStream).call 0 .start).call 0 (.send [1, 2, 3])).call 2000 (.wake 2000)).tx.chunks.size
      ≠ 0) ∧
    ((((({} : UdpStream).call 0 .start).call 0 (.send [1, 2, 3])).call 2000 (.wake 2000)).tx.inFlight.size
      ≠ 0) :=
  ⟨by decide +kernel, (never_stalls (((Run.new.call 0 .start).call 0 (.send [1, 2, 3])).call 2000
    (.wake 2000)) (by decide +kernel) (by decide +kernel)).2.1 (by decide +kernel)⟩

end SeedTransport.Stream
