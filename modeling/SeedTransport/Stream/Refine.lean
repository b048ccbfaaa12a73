import Mathlib
import SeedTransport.Stream.Ledger

set_option autoImplicit false

namespace SeedTransport.Stream

/-! Every operation of a stream is a sequence of ledger steps. -/

open Ledger (Step Steps)

/-- The books of `s` with its sending half replaced. -/
def UdpStream.books (s : UdpStream) (tx : Sending) : Ledger := { s with tx := tx }.ledger

namespace Sending

theorem advanceOldest_books (s : UdpStream) (tx : Sending) :
    s.books tx.advanceOldest = s.books tx := rfl

theorem sample_books (s : UdpStream) (tx : Sending) (latest delay : ℚ) :
    s.books (tx.sample latest delay) = s.books tx := by
  unfold sample
  split <;> rfl

theorem clearSuspects_steps (input : Option Packet) (s : UdpStream) (tx : Sending)
    (ranges : List (Nat × Nat)) : Steps input (s.books tx) (s.books (tx.clearSuspects ranges)) := by
  unfold clearSuspects
  dsimp only
  split
  · split
    · rename_i u _ _
      exact Steps.one (Step.resize (max tx.window u.window) tx.packetBytes
        (fun h => le_max_of_le_left h) id)
    · exact Relation.ReflTransGen.refl
  · exact Relation.ReflTransGen.refl

/-- The window after packet `f` is acked. -/
theorem window_grows {window threshold : ℚ} {limited : Prop} [Decidable limited] {small : Prop}
    [Decidable small] {size : ℚ} (hs : 0 ≤ size) (ht : minWindow ≤ window → 0 ≤ threshold) :
    minWindow ≤ window →
      minWindow ≤ (if limited then window + (if small then size else threshold) else window) := by
  intro h
  have := ht h
  split
  · split <;> linarith
  · exact h

theorem ackPacket_steps {credit delay : Nat} {ranges : List (Nat × Nat)} (s : UdpStream)
    (hg : s.gone = false) (largest : Int) (a : Sending × Option Flight) (pn : Nat) (hn : names ranges pn = true) :
    Steps (some (.ack credit delay ranges)) (s.books a.1)
      (s.books (ackPacket largest a pn).1) := by
  unfold ackPacket
  dsimp only
  split
  · exact Relation.ReflTransGen.refl
  · rename_i f hf
    refine (Steps.one (Step.ack pn credit delay ranges f hg hf rfl hn)).trans ?_
    refine Steps.one (Step.resize _ a.1.packetBytes ?_ id)
    apply window_grows (Nat.cast_nonneg _)
    intro hw
    have hpos : (0 : ℚ) < a.1.window := lt_of_lt_of_le (by decide +kernel) hw
    have : (0 : ℚ) ≤ flows := by decide +kernel
    positivity

theorem ackPackets_steps {credit delay : Nat} {ranges : List (Nat × Nat)} (s : UdpStream)
    (hg : s.gone = false) (largest : Int) (pns : List Nat) (hn : ∀ pn ∈ pns, names ranges pn = true)
    (a : Sending × Option Flight) :
    Steps (some (.ack credit delay ranges)) (s.books a.1)
      (s.books (pns.foldl (ackPacket largest) a).1) := by
  induction pns generalizing a with
  | nil => exact Relation.ReflTransGen.refl
  | cons pn pns ih =>
    simp only [List.forall_mem_cons] at hn
    exact (ackPacket_steps s hg largest a pn hn.1).trans (ih hn.2 _)

theorem rangeTop_le (sent : Int) (below : Option Int) (largest : Nat) :
    rangeTop sent below largest ≤ largest := by
  unfold rangeTop
  split <;> omega

theorem names_of_mem {ranges : List (Nat × Nat)} {r : Nat × Nat} {pn : Nat} (hr : r ∈ ranges)
    (h₁ : pn ≤ r.1) (h₂ : r.2 ≤ pn) : names ranges pn = true := by
  simp only [names, List.any_eq_true, decide_eq_true_eq]
  exact ⟨r, hr, h₁, h₂⟩

theorem ackRange_steps {credit delay : Nat} {ranges : List (Nat × Nat)} (s : UdpStream)
    (hg : s.gone = false) (largest : Int) (a : (Sending × Option Flight) × Option Int) (r : Nat × Nat)
    (hr : r ∈ ranges) :
    Steps (some (.ack credit delay ranges)) (s.books a.1.1)
      (s.books (ackRange largest a r).1.1) := by
  unfold ackRange
  dsimp only
  split
  · exact Relation.ReflTransGen.refl
  · apply ackPackets_steps s hg
    intro pn hpn
    have htop := rangeTop_le ((a.1.1.nextPn : Int) - 1) a.2 r.1
    rw [List.mem_range'_1] at hpn
    exact names_of_mem hr (by omega) (by omega)

theorem ackRanges_steps {credit delay : Nat} {ranges : List (Nat × Nat)} (s : UdpStream)
    (hg : s.gone = false) (largest : Int) (rs : List (Nat × Nat)) (hr : ∀ r ∈ rs, r ∈ ranges)
    (a : (Sending × Option Flight) × Option Int) :
    Steps (some (.ack credit delay ranges)) (s.books a.1.1)
      (s.books (rs.foldl (ackRange largest) a).1.1) := by
  induction rs generalizing a with
  | nil => exact Relation.ReflTransGen.refl
  | cons r rs ih =>
    simp only [List.forall_mem_cons] at hr
    exact (ackRange_steps s hg largest a r hr.1).trans (ih hr.2 _)

theorem scanPacket_steps (input : Option Packet) (s : UdpStream) (t delay persistence : ℚ)
    (a : LossScan) (pn : Nat) :
    Steps input (s.books a.tx) (s.books (scanPacket t delay persistence a pn).tx) := by
  unfold scanPacket
  split
  · exact Relation.ReflTransGen.refl
  · rename_i f hf
    split
    · have hlose : Step input (s.books a.tx) _ := Step.lose pn f hf
      have hl := Steps.one hlose
      dsimp only
      split
      · exact hl
      · split
        · exact hl
        · split <;> exact hl
    · exact Relation.ReflTransGen.refl

theorem scanPackets_steps (input : Option Packet) (s : UdpStream) (t delay persistence : ℚ)
    (pns : List Nat) (a : LossScan) :
    Steps input (s.books a.tx) (s.books (pns.foldl (scanPacket t delay persistence) a).tx) := by
  induction pns generalizing a with
  | nil => exact Relation.ReflTransGen.refl
  | cons pn pns ih => exact (scanPacket_steps input s t delay persistence a pn).trans (ih _)

theorem cutWindow_steps (input : Option Packet) (s : UdpStream) (t : ℚ) (a : LossScan) :
    Steps input (s.books a.tx) (s.books (cutWindow t a)) := by
  have suspects : ∀ tx : Sending, s.books (if tx.undo.isSome then
        if tx.suspects.length + a.lost.length > maxSuspects then
          { tx with undo := none, suspects := [] }
        else { tx with suspects := tx.suspects ++ a.lost }
      else tx) = s.books tx := by
    intro tx
    split
    · split <;> rfl
    · rfl
  unfold cutWindow
  dsimp only
  split
  · rw [suspects]
    refine Steps.one (Step.resize _ a.tx.packetBytes (fun _ => ?_) id)
    split
    · exact le_refl _
    · exact le_max_right _ _
  · rw [suspects]

theorem detectLoss_steps (input : Option Packet) (s : UdpStream) (tx : Sending) (t : ℚ) :
    Steps input (s.books tx) (s.books (tx.detectLoss t)) := by
  unfold detectLoss
  rw [advanceOldest_books]
  refine Relation.ReflTransGen.trans ?_ (cutWindow_steps input s t _)
  exact scanPackets_steps input s t _ _ _ { tx := ({ tx with lossTime := ⊤ }).advanceOldest }

theorem rerouted_steps (input : Option Packet) (s : UdpStream) (tx : Sending) (now rttMs : ℚ) :
    Steps input (s.books tx) (s.books (tx.rerouted now rttMs)) := by
  have h : s.books (tx.rerouted now rttMs) =
      { s.books tx with window := initialWindow, packetBytes := basePacket } :=
    congrArg (fun l : Ledger => { l with packetBytes := basePacket })
      (sample_books s { tx with
        window := initialWindow, threshold := ⊤, recoveryStart := (now : ℚ), undo := none,
        suspects := [], minRtt := ⊤ } rttMs 0)
  rw [h]
  refine Steps.one (Step.resize initialWindow basePacket (fun _ => ?_) (fun _ => Or.inl rfl))
  simp only [minWindow, initialWindow, basePacket]
  norm_num

theorem timeout_steps (input : Option Packet) (s : UdpStream) (tx : Sending) :
    Steps input (s.books tx) (s.books tx.timeout) := by
  unfold timeout
  dsimp only
  split
  · exact Steps.one (Step.resize tx.window basePacket id (fun _ => Or.inl rfl))
  · exact Relation.ReflTransGen.refl

/-- The walk stops at a chunk not acked or at the end of what it looks at, and passes none. -/
theorem firstUnacked_spec (chunks : OrdMap Nat Bytes) (offsets : List Nat) (n i : Nat) :
    ∃ j, firstUnacked chunks offsets n i = i + j ∧ j ≤ n ∧
      (∀ k, k < j → chunks.get (offsets.getD (i + k) 0) = none) ∧
      (j < n → ∃ c, chunks.get (offsets.getD (i + j) 0) = some c) := by
  induction n generalizing i with
  | zero => exact ⟨0, rfl, Nat.le_refl _, fun k hk => absurd hk (Nat.not_lt_zero k),
      fun h => absurd h (Nat.lt_irrefl 0)⟩
  | succ n ih =>
    unfold firstUnacked
    split
    · rename_i hhas
      exact ⟨0, rfl, Nat.zero_le _, fun k hk => absurd hk (Nat.not_lt_zero k),
        fun _ => (OrdMap.has_iff _ _).mp hhas⟩
    · rename_i hhas
      obtain ⟨j, he, hj, hno, hyes⟩ := ih (i + 1)
      have hnone : chunks.get (offsets.getD i 0) = none := by
        rw [Option.eq_none_iff_forall_ne_some]
        intro c hc
        exact hhas ((OrdMap.has_iff _ _).mpr ⟨c, hc⟩)
      refine ⟨j + 1, by rw [he]; omega, by omega, ?_, ?_⟩
      · intro k hk
        cases k with
        | zero => exact hnone
        | succ k =>
          have := hno k (by omega)
          rwa [show i + 1 + k = i + (k + 1) by omega] at this
      · intro hlt
        have := hyes (by omega)
        rwa [show i + 1 + j = i + (j + 1) by omega] at this

/-- What `oldestChunk` finds: it moves the head of the list past acked chunks only, and stops
at one not acked. -/
theorem oldestChunk_spec (tx : Sending) (hh : tx.sentHead ≤ tx.sentOffsets.length) :
    ∃ offsets head, tx.oldestChunk.1 = { tx with sentOffsets := offsets, sentHead := head } ∧
      head ≤ offsets.length ∧ tx.oldestChunk.2 = (offsets.drop head).head? ∧
      (∀ o, tx.chunks.get o ≠ none → o ∈ tx.sentOffsets.drop tx.sentHead →
        o ∈ offsets.drop head) ∧
      (∀ o, (offsets.drop head).head? = some o → ∃ c, tx.chunks.get o = some c) := by
  obtain ⟨j, he, hj, hno, hyes⟩ := firstUnacked_spec tx.chunks tx.sentOffsets
    (tx.sentOffsets.length - tx.sentHead) tx.sentHead
  have hkeep : ∀ o, tx.chunks.get o ≠ none → o ∈ tx.sentOffsets.drop tx.sentHead →
      o ∈ tx.sentOffsets.drop (tx.sentHead + j) := by
    intro o hc ho
    obtain ⟨k, hk, rfl⟩ := List.mem_iff_getElem.mp ho
    rw [List.length_drop] at hk
    rw [List.getElem_drop] at hc ⊢
    by_cases hkj : k < j
    · have h := hno k hkj
      rw [List.getD_eq_getElem _ _ (by omega)] at h
      exact absurd h hc
    · refine List.mem_iff_getElem.mpr ⟨k - j, by rw [List.length_drop]; omega, ?_⟩
      rw [List.getElem_drop]
      congr 1
      omega
  have hfound : ∀ o, (tx.sentOffsets.drop (tx.sentHead + j)).head? = some o →
      ∃ c, tx.chunks.get o = some c := by
    intro o ho
    rw [List.head?_drop] at ho
    obtain ⟨hlt, rfl⟩ := List.getElem?_eq_some_iff.mp ho
    have h := hyes (by omega)
    rwa [List.getD_eq_getElem _ _ hlt] at h
  unfold oldestChunk
  rw [he]
  dsimp only
  split
  · refine ⟨tx.sentOffsets.drop (tx.sentHead + j), 0, rfl, Nat.zero_le _, ?_, ?_, ?_⟩
    · rw [List.drop_zero, List.head?_eq_getElem?]
    · rw [List.drop_zero]; exact hkeep
    · rw [List.drop_zero]; exact hfound
  · exact ⟨tx.sentOffsets, tx.sentHead + j, rfl, by omega, by rw [List.head?_drop], hkeep, hfound⟩

theorem oldestChunk_steps (input : Option Packet) (s : UdpStream) (tx : Sending)
    (hh : tx.sentHead ≤ tx.sentOffsets.length) :
    Steps input (s.books tx) (s.books tx.oldestChunk.1) := by
  obtain ⟨offsets, head, he, hle, -, hkeep, -⟩ := oldestChunk_spec tx hh
  rw [he]
  exact Steps.one (Step.relist offsets head (fun _ => hle) hkeep)

/-- Inserting behind an offset that is still looked at keeps both in view. -/
theorem insertAfter_spec (offsets : List Nat) (head offset rest : Nat)
    (hh : head ≤ offsets.length) :
    (insertAfter offsets head offset rest).length = offsets.length + 1 ∧
      ∀ x, x ∈ offsets.drop head ∨ (x = rest ∧ offset ∈ offsets.drop head) →
        x ∈ (insertAfter offsets head offset rest).drop head := by
  unfold insertAfter
  cases hk : (offsets.drop head).idxOf? offset with
  | none =>
    have hnot : offset ∉ offsets.drop head := List.idxOf?_eq_none_iff.mp hk
    refine ⟨by simp, ?_⟩
    rintro x (hx | ⟨-, hx⟩)
    · simp only [List.take_zero, List.drop_zero, List.nil_append]
      cases head with
      | zero => exact List.mem_cons_of_mem _ hx
      | succ head =>
        rw [List.drop_succ_cons]
        exact List.mem_of_mem_drop (i := 1) (by rwa [List.drop_drop])
    · exact absurd hx hnot
  | some k =>
    obtain ⟨hlt, -⟩ := List.idxOf?_eq_some_iff.mp hk
    rw [List.length_drop] at hlt
    dsimp only
    refine ⟨?_, ?_⟩
    · simp only [List.length_append, List.length_take, List.length_cons, List.length_drop]
      omega
    · intro x hx
      have hdrop : (offsets.take (head + k + 1) ++ rest :: offsets.drop (head + k + 1)).drop head =
          (offsets.drop head).take (k + 1) ++ rest :: (offsets.drop head).drop (k + 1) := by
        rw [List.drop_append_of_le_length (by rw [List.length_take]; omega), List.drop_take,
          List.drop_drop, show head + k + 1 - head = k + 1 by omega,
          show head + (k + 1) = head + k + 1 by omega]
      rw [hdrop, List.mem_append, List.mem_cons]
      rcases hx with hx | ⟨rfl, -⟩
      · rw [← List.take_append_drop (k + 1) (offsets.drop head), List.mem_append] at hx
        rcases hx with hx | hx
        · exact Or.inl hx
        · exact Or.inr (Or.inr hx)
      · exact Or.inr (Or.inl rfl)

theorem fit_steps (input : Option Packet) (s : UdpStream) (hg : s.gone = false) (tx : Sending)
    (picked : Option Nat)
    {o : Nat} {c : Bytes} (hc : tx.chunks.get o = some c)
    (hh : tx.sentHead ≤ tx.sentOffsets.length) :
    Steps input { s.books tx with picked := picked }
      { s.books (tx.fit o c) with picked := picked } := by
  unfold fit
  dsimp only
  split
  · exact Relation.ReflTransGen.refl
  · rename_i hlt
    obtain ⟨hlen, hkeep⟩ := insertAfter_spec tx.sentOffsets tx.sentHead o
      (o + (tx.packetBytes - dataHeader)) hh
    have hle : tx.sentOffsets.length ≤ (insertAfter tx.sentOffsets tx.sentHead o
        (o + (tx.packetBytes - dataHeader))).length := by
      rw [hlen]
      exact Nat.le_succ _
    exact Steps.one (Step.split o _ c _ hg hc rfl (Nat.lt_of_not_le hlt) hle hkeep)

theorem fit_get {tx : Sending} {o : Nat} {c : Bytes} (hc : tx.chunks.get o = some c)
    (hroom : 0 < tx.packetBytes - dataHeader) :
    (tx.fit o c).chunks.get o = some (c.take (tx.packetBytes - dataHeader)) := by
  unfold fit
  dsimp only
  split
  · rename_i hle
    rw [hc, List.take_of_length_le hle]
  · dsimp only
    rw [OrdMap.get_set, if_neg (by omega), OrdMap.get_set_self]

theorem nextLost_kept {tx : Sending} {o : Nat} {c : Bytes} (rest : List Nat)
    (hc : tx.chunks.get o = some c) : tx.nextLost (o :: rest) =
      ({ tx with lost := tx.lost.delete o }.fit o c, some o) := by
  simp only [nextLost, hc]

theorem nextLost_acked {tx : Sending} {o : Nat} (rest : List Nat) (hc : tx.chunks.get o = none) :
    tx.nextLost (o :: rest) = nextLost { tx with lost := tx.lost.delete o } rest := by
  simp only [nextLost, hc]

theorem nextLost_steps (input : Option Packet) (s : UdpStream) (hg : s.gone = false) (offsets : List Nat) (tx : Sending)
    (hh : tx.sentHead ≤ tx.sentOffsets.length) (hroom : 0 < tx.packetBytes - dataHeader) :
    Steps input (s.books tx)
        { s.books (tx.nextLost offsets).1 with picked := (tx.nextLost offsets).2 } ∧
      ∀ o, (tx.nextLost offsets).2 = some o → ∃ c, (tx.nextLost offsets).1.chunks.get o = some c := by
  induction offsets generalizing tx with
  | nil => exact ⟨Relation.ReflTransGen.refl, fun o ho => nomatch ho⟩
  | cons offset rest ih =>
    cases hc : tx.chunks.get offset with
    | some chunk =>
      rw [nextLost_kept rest hc]
      have hpick : Steps input (s.books tx)
          { s.books { tx with lost := tx.lost.delete offset } with picked := some offset } := by
        refine Steps.one (Step.pick offset chunk (tx.lost.delete offset) rfl hc ?_)
        intro k hk
        change (tx.lost.delete offset).get k = tx.lost.get k
        rw [OrdMap.get_delete, if_neg hk]
      refine ⟨hpick.trans (fit_steps input s hg _ _ hc hh), ?_⟩
      intro o ho
      cases ho
      exact ⟨_, fit_get hc hroom⟩
    | none =>
      rw [nextLost_acked rest hc]
      obtain ⟨hsteps, hget⟩ := ih { tx with lost := tx.lost.delete offset } hh hroom
      exact ⟨(Steps.one (Step.unlose offset hc)).trans hsteps, hget⟩

theorem cutChunk_steps (input : Option Packet) (s : UdpStream) (hg : s.gone = false) (tx : Sending)
    (hf : 0 < tx.fresh) :
    Steps input (s.books tx) { s.books tx.cutChunk with picked := some tx.nextOffset } :=
  Steps.one (Step.cut tx.fresh hg rfl hf (Nat.min_le_left _ _))

/-- The four ways `nextChunk` ends. -/
theorem nextChunk_cases (tx : Sending) (probe : Bool) :
    (∃ o, (tx.nextLost tx.lost.keys).2 = some o ∧
      tx.nextChunk probe = ((tx.nextLost tx.lost.keys).1, some o)) ∨
    ((tx.nextLost tx.lost.keys).2 = none ∧
      ((0 < (tx.nextLost tx.lost.keys).1.fresh ∧ tx.nextChunk probe =
        ((tx.nextLost tx.lost.keys).1.cutChunk, some (tx.nextLost tx.lost.keys).1.nextOffset)) ∨
      ((tx.nextLost tx.lost.keys).1.fresh = 0 ∧ probe = true ∧
        ∃ o, (tx.nextLost tx.lost.keys).1.oldestChunk.2 = some o ∧ tx.nextChunk probe =
          ((tx.nextLost tx.lost.keys).1.oldestChunk.1.fit o
            (((tx.nextLost tx.lost.keys).1.oldestChunk.1.chunks.get o).getD []), some o)) ∨
      ((tx.nextLost tx.lost.keys).1.fresh = 0 ∧ tx.nextChunk probe =
        (if probe then (tx.nextLost tx.lost.keys).1.oldestChunk.1
          else (tx.nextLost tx.lost.keys).1, none)))) := by
  unfold nextChunk
  generalize tx.nextLost tx.lost.keys = r
  obtain ⟨tx', offset⟩ := r
  cases offset with
  | some o => exact Or.inl ⟨o, rfl, rfl⟩
  | none =>
    refine Or.inr ⟨rfl, ?_⟩
    dsimp only
    by_cases hf : 0 < tx'.fresh
    · exact Or.inl ⟨hf, if_pos hf⟩
    · have hf' : tx'.fresh = 0 := Nat.eq_zero_of_not_pos hf
      rw [if_neg (show ¬ tx'.fresh > 0 from hf)]
      cases probe with
      | false => exact Or.inr (Or.inr ⟨hf', rfl⟩)
      | true =>
        generalize tx'.oldestChunk = r
        obtain ⟨tx'', oldest⟩ := r
        cases oldest with
        | some o => exact Or.inr (Or.inl ⟨hf', rfl, o, rfl, rfl⟩)
        | none => exact Or.inr (Or.inr ⟨hf', rfl⟩)

theorem nextChunk_steps (input : Option Packet) (s : UdpStream) (hg : s.gone = false)
    (tx : Sending) (probe : Bool) (hl : (s.books tx).TxFair) :
    Steps input (s.books tx) { s.books (tx.nextChunk probe).1 with picked := (tx.nextChunk probe).2 } ∧
      ∀ o, (tx.nextChunk probe).2 = some o → ∃ c, (tx.nextChunk probe).1.chunks.get o = some c := by
  obtain ⟨hlost, hgot⟩ := nextLost_steps input s hg tx.lost.keys tx hl.head hl.room_pos
  have hcases := nextChunk_cases tx probe
  generalize tx.nextLost tx.lost.keys = r at hlost hgot hcases
  obtain ⟨tx', offset⟩ := r
  dsimp only at hlost hgot hcases
  rcases hcases with ⟨o, rfl, he⟩ | ⟨rfl, ⟨hf, he⟩ | ⟨-, -, o, ho, he⟩ | ⟨-, he⟩⟩
  · rw [he]
    exact ⟨hlost, hgot⟩
  · rw [he]
    refine ⟨hlost.trans (cutChunk_steps input s hg tx' hf), ?_⟩
    intro o ho
    cases ho
    exact ⟨_, OrdMap.get_set_self _ _ _⟩
  · have hl' : (s.books tx').TxFair := hl.steps hlost
    obtain ⟨offsets, head, hold, hle, hhead, -, hfound⟩ := oldestChunk_spec tx' hl'.head
    have hsteps := hlost.trans (oldestChunk_steps input s tx' hl'.head)
    obtain ⟨c, hc⟩ := hfound o (hhead ▸ ho)
    rw [hold] at he hsteps
    rw [he, show ({ tx' with sentOffsets := offsets, sentHead := head } : Sending).chunks.get o =
      some c from hc, Option.getD_some]
    refine ⟨(hsteps.trans ?_).trans (fit_steps input s hg _ _ hc hle), ?_⟩
    · exact Steps.one (Step.pick o c tx'.lost rfl hc (fun _ _ => rfl))
    · intro o' ho'
      cases ho'
      exact ⟨_, fit_get hc hl'.room_pos⟩
  · rw [he]
    refine ⟨?_, fun o ho => nomatch ho⟩
    cases probe with
    | false => exact hlost
    | true => exact hlost.trans (oldestChunk_steps input s tx' (hl.steps hlost).head)

end Sending

namespace UdpStream

theorem sendChunk_steps (input : Option Packet) (s : UdpStream) (tx : Sending) (now : ℚ) {o : Nat}
    {c : Bytes} (hc : tx.chunks.get o = some c) :
    Steps input { s.books tx with picked := some o }
      (sendChunk { s with tx := tx } now o c).ledger :=
  Steps.one (Step.transmit o _ _ now c rfl hc)

theorem flushLoop_steps (input : Option Packet) (now : ℚ) (n probes : Nat) (s : UdpStream)
    (hg : s.gone = false) (hl : s.ledger.TxFair) : Steps input s.ledger (flushLoop now n probes s).ledger := by
  induction n generalizing probes s with
  | zero => exact Relation.ReflTransGen.refl
  | succ n ih =>
    unfold flushLoop
    split
    · exact Relation.ReflTransGen.refl
    · obtain ⟨hnext, hgot⟩ := Sending.nextChunk_steps input s hg s.tx (decide (probes > 0)) hl
      revert hnext hgot
      generalize s.tx.nextChunk (decide (probes > 0)) = r
      obtain ⟨tx, offset⟩ := r
      intro hnext hgot
      cases offset with
      | none => exact hnext
      | some offset =>
        obtain ⟨c, hc⟩ := hgot offset rfl
        dsimp only at hc ⊢
        rw [hc, Option.getD_some]
        have hsent : Steps input s.ledger (sendChunk { s with tx := tx } now offset c).ledger :=
          Relation.ReflTransGen.trans hnext (sendChunk_steps input s tx now hc)
        exact hsent.trans (ih _ _ hg (hl.steps hsent))

theorem arm_ledger (s : UdpStream) : s.arm.ledger = s.ledger := by
  unfold arm
  split
  · rfl
  · split <;> rfl

theorem flush_steps (input : Option Packet) (s : UdpStream) (now : ℚ) (probes : Nat)
    (hl : s.ledger.TxFair) : Steps input s.ledger (s.flush now probes).ledger := by
  unfold flush
  split
  · exact Relation.ReflTransGen.refl
  · rename_i h
    rw [arm_ledger]
    exact flushLoop_steps input now _ probes s (by simpa using fun hg => h (Or.inr hg)) hl

/-- An ack of the ranges an end has. -/
def Says (ranges : List (Nat × Nat)) (p : Packet) : Prop :=
  ∃ credit delay, p = .ack credit delay ranges

theorem says_steps (input : Option Packet) (l : Ledger) (ps : List Packet)
    (hp : ∀ p ∈ ps, Says l.ranges p) :
    Steps input l { l with emitted := l.emitted ++ ps } := by
  induction ps generalizing l with
  | nil => rw [List.append_nil]
  | cons p ps ih =>
    simp only [List.forall_mem_cons] at hp
    obtain ⟨⟨credit, delay, rfl⟩, hps⟩ := hp
    have h := ih { l with emitted := l.emitted ++ [.ack credit delay l.ranges] } hps
    simp only [List.append_assoc, List.singleton_append] at h
    exact Relation.ReflTransGen.trans (Steps.one (Step.say credit delay)) h

theorem fail_steps (input : Option Packet) (s : UdpStream) (why : Cause)
    (hh : why = .closeHeard → input = some .close) (hd : why ≠ .drained) :
    Steps input s.ledger (s.fail why).ledger := by
  unfold fail
  split
  · exact Relation.ReflTransGen.refl
  · rename_i hg
    have hgone : s.gone = false := by simpa using hg
    have h : Step input s.ledger _ :=
      Step.stop why [] hgone (List.forall_mem_nil _) hh (fun e => absurd e hd)
    rw [List.append_nil] at h
    exact Steps.one h

theorem emit_ledger (s : UdpStream) (now : ℚ) (p : Packet) :
    (s.emit now p).ledger = { s.ledger with emitted := s.emitted ++ [p] } := rfl

theorem emit_thrice_ledger (s : UdpStream) (now : ℚ) (p : Packet) :
    (((s.emit now p).emit now p).emit now p).ledger =
      { s.ledger with emitted := s.emitted ++ [p, p, p] } := by
  simp only [emit, List.append_assoc, List.cons_append, List.nil_append]
  rfl

/-- `end` is the only place a CLOSE is sent. -/
theorem endStream_steps (input : Option Packet) (s : UdpStream) (now : ℚ) (why : Cause)
    (hh : why ≠ .closeHeard) (hd : why = .drained → s.ledger.Drained) :
    Steps input s.ledger (s.endStream now why).ledger := by
  unfold endStream
  split
  · exact Relation.ReflTransGen.refl
  · rename_i hg
    have hgone : s.gone = false := by simpa using hg
    have hstop : ∀ closes : List Packet, (∀ p ∈ closes, p = .close) → Steps input s.ledger
        { s.ledger with gone := true, cause := some why, emitted := s.emitted ++ closes } :=
      fun closes hc => Steps.one (Step.stop why closes hgone hc (fun e => absurd e hh) hd)
    unfold sendClose
    split
    · have hfail : (((((s.emit now .close).emit now .close).emit now .close).fail why)).ledger =
          { s.ledger with
            gone := true, cause := some why
            emitted := s.emitted ++ [.close, .close, .close] } := by
        unfold fail
        rw [if_neg (show ¬ (((s.emit now .close).emit now .close).emit now .close).gone = true
          from hg)]
        simp only [emit, List.append_assoc, List.cons_append, List.nil_append]
        rfl
      rw [hfail]
      exact hstop _ (by simp)
    · unfold fail
      rw [if_neg hg]
      have h := hstop [] (List.forall_mem_nil _)
      rw [List.append_nil] at h
      exact h

theorem sendAck_ledger (s : UdpStream) (now : ℚ) :
    ∃ ps, (∀ p ∈ ps, Says s.rx.ranges p) ∧
      (s.sendAck now).ledger = { s.ledger with emitted := s.emitted ++ ps } := by
  unfold sendAck
  split
  · exact ⟨[], List.forall_mem_nil _, by rw [List.append_nil]; rfl⟩
  · dsimp only
    split
    · rw [emit_thrice_ledger]
      exact ⟨_, by simp [Says], rfl⟩
    · rw [emit_ledger]
      exact ⟨_, by simp [Says], rfl⟩

theorem sendAck_steps (input : Option Packet) (s : UdpStream) (now : ℚ) :
    Steps input s.ledger (s.sendAck now).ledger := by
  obtain ⟨ps, hp, he⟩ := sendAck_ledger s now
  rw [he]
  exact says_steps input s.ledger ps hp

theorem sendProbe_steps (input : Option Packet) (s : UdpStream) (now : ℚ) :
    Steps input s.ledger (s.sendProbe now).ledger := by
  unfold sendProbe
  dsimp only
  split
  · exact Relation.ReflTransGen.refl
  · split
    · exact Relation.ReflTransGen.refl
    · exact Steps.one Step.probe

theorem startProbe_steps (input : Option Packet) (s : UdpStream) (now : ℚ) :
    Steps input s.ledger (s.startProbe now).ledger :=
  sendProbe_steps input { s with tx := { s.tx with probes := [] } } now

theorem probeAcked_steps (input : Option Packet) (s : UdpStream) (ranges : List (Nat × Nat)) :
    Steps input s.ledger (s.probeAcked ranges).ledger := by
  unfold probeAcked
  split
  · exact Steps.one (Step.resize s.tx.window maxPacket id (fun _ => Or.inr rfl))
  · exact Relation.ReflTransGen.refl

theorem handOver_steps (input : Option Packet) (s : UdpStream) :
    Steps input s.ledger s.handOver.ledger := by
  unfold handOver
  split
  · rename_i h
    have hg : s.gone = false := by simpa using h.2.2.2
    have hlen : (s.rx.held.take (min s.rx.held.bytes maxRead)).1.length =
        min s.rx.held.bytes maxRead := by
      rw [Pieces.take_fst, List.length_take]
      exact Nat.min_eq_left (Nat.min_le_left _ _)
    dsimp only
    rw [hlen]
    exact Steps.one (Step.hand (min s.rx.held.bytes maxRead) hg (Nat.min_le_left _ _))
  · exact Relation.ReflTransGen.refl

theorem grant_ledger (s : UdpStream) (now : ℚ) : (s.grant now).ledger = s.ledger := by
  unfold grant
  split <;> rfl

theorem deliver_steps (input : Option Packet) (s : UdpStream) (now : ℚ) :
    Steps input s.ledger (s.deliver now).ledger := by
  have hgrant : Steps input s.ledger (s.handOver.grant now).ledger := by
    rw [grant_ledger]
    exact handOver_steps input s
  unfold deliver
  dsimp only
  split
  · exact hgrant.trans (sendAck_steps input _ now)
  · exact hgrant

theorem turn_steps (input : Option Packet) (s : UdpStream) (now : ℚ) :
    Steps input s.ledger (s.turn now).ledger := by
  have h := deliver_steps input { s with rx := { s.rx with turnDue := false } } now
  unfold turn
  dsimp only
  split
  · exact Relation.ReflTransGen.trans h (sendAck_steps input _ now)
  · exact h

theorem queueTurn_ledger (s : UdpStream) : s.queueTurn.ledger = s.ledger := rfl

/-- What `received` leaves: the number noted, and perhaps an ack of it. -/
theorem received_ledger (s : UdpStream) (now : ℚ) (pn : Nat) :
    ∃ ps, (∀ p ∈ ps, Says (record s.rx.ranges pn) p) ∧ (s.received now pn).ledger =
      { s.ledger with ranges := record s.rx.ranges pn, emitted := s.emitted ++ ps } := by
  unfold received
  rw [queueTurn_ledger]
  split
  · exact sendAck_ledger { s with rx := { s.rx with
      ranges := record s.rx.ranges pn
      largestAt := _ } } now
  · exact ⟨[], List.forall_mem_nil _, by rw [List.append_nil]; rfl⟩

theorem onProbe_steps (s : UdpStream) (now : ℚ) (pn : Nat) :
    Steps (some (.probe pn)) s.ledger (s.received now pn).ledger := by
  obtain ⟨ps, hp, he⟩ := received_ledger s now pn
  rw [he]
  refine Relation.ReflTransGen.trans (Steps.one (Step.note pn rfl)) ?_
  exact says_steps _ { s.ledger with ranges := record s.rx.ranges pn } ps hp

theorem dropBelow_sublist (floor : Nat) (ranges : List (Nat × Nat)) :
    (dropBelow floor ranges).Sublist ranges := by
  cases ranges with
  | nil => exact List.Sublist.refl _
  | cons r rest => exact (List.rdropWhile_prefix _ rest).sublist.cons_cons r

/-- The books of `s` with its receiving half replaced, but not yet the numbers it notes nor
the packets it sends. -/
def shelf (s : UdpStream) (rx : Receiving) (ranges : List (Nat × Nat)) (emitted : List Packet) :
    Ledger :=
  { { s with rx := rx }.ledger with ranges := ranges, emitted := emitted }

theorem drainAhead_steps (input : Option Packet) (s : UdpStream) (hg : s.gone = false) (ranges : List (Nat × Nat))
    (emitted : List Packet) (n : Nat) (rx : Receiving) :
    Steps input (s.shelf rx ranges emitted) (s.shelf (rx.drainAhead n) ranges emitted) := by
  induction n generalizing rx with
  | zero => exact Relation.ReflTransGen.refl
  | succ n ih =>
    unfold Receiving.drainAhead
    split
    · exact Relation.ReflTransGen.refl
    · rename_i next hnext
      refine Relation.ReflTransGen.trans ?_ (ih _)
      exact Steps.one (Step.drain next hg hnext)

theorem store_steps (s : UdpStream) (hg : s.gone = false) (rx : Receiving) (ranges : List (Nat × Nat))
    (emitted : List Packet) (pn o floor : Nat) (bs : Bytes)
    (hq : rx.ahead.get rx.inOrder = none) :
    Steps (some (.data pn o floor bs)) (s.shelf rx ranges emitted)
      (s.shelf (rx.store o bs) (record ranges pn) emitted) := by
  unfold Receiving.store
  dsimp only
  split
  · rename_i ho
    have ho' : o = rx.inOrder := ho
    have harr : Steps (some (.data pn o floor bs)) (s.shelf rx ranges emitted) (s.shelf
        { rx with furthest := max rx.furthest (o + bs.length), held := rx.held.push bs }
        (record ranges pn) emitted) :=
      Steps.one (Step.arriveInOrder pn o floor bs hg rfl ho' (by rw [ho']; exact hq))
    have hdrain := Relation.ReflTransGen.trans harr (drainAhead_steps _ s hg _ emitted rx.ahead.size _)
    split
    · rename_i hclear
      exact Relation.ReflTransGen.trans hdrain (Steps.one (Step.clear hg hclear.1))
    · exact hdrain
  · rename_i hne
    split
    · rename_i h
      refine Steps.one (Step.arriveAhead pn o floor bs hg rfl h.1 ?_)
      change rx.ahead.get o = none
      rw [OrdMap.get_eq_none]
      simpa [OrdMap.has] using h.2
    · rename_i h
      refine Steps.one (Step.arriveStale pn o floor bs hg rfl ?_)
      change o < rx.inOrder ∨ rx.ahead.get o ≠ none
      have hne' : o ≠ rx.inOrder := hne
      have h' : ¬ (o > rx.inOrder ∧ ¬ rx.ahead.has o = true) := h
      rcases Nat.lt_or_ge o rx.inOrder with hlt | hge
      · exact Or.inl hlt
      · refine Or.inr ?_
        by_contra hnone
        refine h' ⟨by omega, ?_⟩
        rw [OrdMap.get_eq_none] at hnone
        simpa [OrdMap.has] using hnone

theorem drainAhead_ranges (n : Nat) (rx : Receiving) : (rx.drainAhead n).ranges = rx.ranges := by
  induction n generalizing rx with
  | zero => rfl
  | succ n ih =>
    unfold Receiving.drainAhead
    split
    · rfl
    · exact ih _

theorem store_ranges (rx : Receiving) (o : Nat) (bs : Bytes) :
    (rx.store o bs).ranges = rx.ranges := by
  unfold Receiving.store
  dsimp only
  split
  · split <;> exact drainAhead_ranges _ _
  · split <;> rfl

theorem onChunk_steps (s : UdpStream) (hg : s.gone = false) (now : ℚ) (pn o floor : Nat)
    (bs : Bytes) (hq : s.rx.ahead.get s.rx.inOrder = none) :
    Steps (some (.data pn o floor bs)) s.ledger (s.onChunk now pn o floor bs).ledger := by
  unfold onChunk
  split
  · exact Relation.ReflTransGen.refl
  · obtain ⟨ps, hp, he⟩ := received_ledger s now pn
    dsimp only
    generalize s.received now pn = s₁ at he ⊢
    have hheld : s₁.rx.held = s.rx.held := congrArg Ledger.held he
    have htaken : s₁.rx.taken = s.rx.taken := congrArg Ledger.taken he
    have hahead : s₁.rx.ahead = s.rx.ahead := congrArg Ledger.ahead he
    have hemit : s₁.emitted = s.emitted ++ ps := congrArg Ledger.emitted he
    have hranges : s₁.rx.ranges = record s.rx.ranges pn := congrArg Ledger.ranges he
    have hg₁ : s₁.gone = false := (congrArg Ledger.gone he).trans hg
    have hstart : s.ledger = s₁.shelf { s₁.rx with ranges := dropBelow floor s₁.rx.ranges }
        s.rx.ranges s.emitted := by
      change s.ledger = { s₁.ledger with ranges := s.rx.ranges, emitted := s.emitted }
      rw [he]
      rfl
    have hstore := store_steps s₁ hg₁ { s₁.rx with ranges := dropBelow floor s₁.rx.ranges }
      s.rx.ranges s.emitted pn o floor bs (by
        change s₁.rx.ahead.get (s₁.rx.taken + s₁.rx.held.bytes) = none
        rw [hahead, htaken, hheld]
        exact hq)
    rw [← hstart] at hstore
    have hsay := says_steps (some (.data pn o floor bs)) (s₁.shelf
      ({ s₁.rx with ranges := dropBelow floor s₁.rx.ranges }.store o bs)
      (record s.rx.ranges pn) s.emitted) ps hp
    have hforget : Steps (some (.data pn o floor bs)) (s₁.shelf
        ({ s₁.rx with ranges := dropBelow floor s₁.rx.ranges }.store o bs)
        (record s.rx.ranges pn) (s.emitted ++ ps)) (s₁.shelf
        ({ s₁.rx with ranges := dropBelow floor s₁.rx.ranges }.store o bs)
        (dropBelow floor s₁.rx.ranges) (s.emitted ++ ps)) :=
      Steps.one (Step.forget _ (by rw [hranges]; exact dropBelow_sublist floor _))
    have hall := Relation.ReflTransGen.trans hstore (Relation.ReflTransGen.trans hsay hforget)
    have hend : s₁.shelf ({ s₁.rx with ranges := dropBelow floor s₁.rx.ranges }.store o bs)
        (dropBelow floor s₁.rx.ranges) (s.emitted ++ ps) = ({ s₁ with rx :=
          ({ s₁.rx with ranges := dropBelow floor s₁.rx.ranges }.store o bs) } : UdpStream).ledger := by
      have hr : (({ s₁.rx with ranges := dropBelow floor s₁.rx.ranges }).store o bs).ranges =
          dropBelow floor s₁.rx.ranges := store_ranges _ o bs
      generalize ({ s₁.rx with ranges := dropBelow floor s₁.rx.ranges }).store o bs = rx at hr ⊢
      rw [← hr, ← hemit]
      rfl
    rw [hend] at hall
    split
    · exact hall.trans (fail_steps _ _ .overflow (fun h => by cases h) (fun h => by cases h))
    · exact hall

theorem ackNamed_steps {credit delay : Nat} {ranges : List (Nat × Nat)} (s : UdpStream)
    (hg : s.gone = false) (largest : Int) : Steps (some (.ack credit delay ranges)) s.ledger
      (s.books (ackNamed s.tx largest ranges).1) :=
  Sending.ackRanges_steps s hg largest ranges (fun _ h => h) ((s.tx, none), none)

/-- What follows once an ack's packets are out of flight. -/
theorem onRanges_rest {credit delay : Nat} {ranges : List (Nat × Nat)} (s : UdpStream) (now : ℚ)
    (first : Nat × Nat) : Steps (some (.ack credit delay ranges))
      (s.books (ackNamed s.tx (min (first.1 : Int) ((s.tx.nextPn : Int) - 1)) ranges).1)
      (s.onRanges now delay first ranges).ledger := by
  unfold onRanges
  extract_lets largest newest s₁ s₂ tx₁ tx₂ tx₃ s₃
  have h₂ : Steps (some (.ack credit delay ranges)) s₁.ledger s₂.ledger := by
    simp only [s₂]
    split
    · exact probeAcked_steps _ s₁ ranges
    · exact Relation.ReflTransGen.refl
  have h₃ : Steps (some (.ack credit delay ranges)) s₂.ledger (s₂.books tx₂) :=
    Sending.clearSuspects_steps _ s₂ s₂.tx ranges
  have h₄ : s₂.books tx₃ = s₂.books tx₂ := by
    simp only [tx₃]
    clear_value newest
    split
    · exact Sending.sample_books _ _ _ _
    · rfl
  have h₅ : Steps (some (.ack credit delay ranges)) (s₂.books tx₃) s₃.ledger :=
    Sending.detectLoss_steps _ s₂ tx₃ now
  rw [h₄] at h₅
  have hall := (h₂.trans h₃).trans h₅
  split
  · exact hall.trans (startProbe_steps _ { s₃ with tx := { s₃.tx with reprobe := false } } now)
  · exact hall

theorem onRanges_steps {credit delay : Nat} {ranges : List (Nat × Nat)} (s : UdpStream)
    (hg : s.gone = false) (now : ℚ) (first : Nat × Nat) : Steps (some (.ack credit delay ranges)) s.ledger
      (s.onRanges now delay first ranges).ledger :=
  (ackNamed_steps s hg _).trans (onRanges_rest s now first)

theorem buffered_steps (input : Option Packet) (s : UdpStream) (hl : s.ledger.TxFair) :
    Steps input s.ledger (s.books s.tx.buffered.1) :=
  Sending.oldestChunk_steps input s s.tx hl.head

/-- When `buffered` is zero, nothing is left. -/
theorem drained_of_buffered {s : UdpStream} (hl : s.ledger.TxFair) (h : s.tx.buffered.2 = 0) :
    s.ledger.Drained := by
  obtain ⟨offsets, head, -, -, hhead, hkeep, hfound⟩ := Sending.oldestChunk_spec s.tx hl.head
  have hle : s.tx.nextOffset ≤ s.tx.written := hl.next_le
  have hleft : s.tx.written - s.tx.oldestChunk.2.getD s.tx.nextOffset = 0 := h
  rw [hhead] at hleft
  cases ho : (offsets.drop head).head? with
  | some o =>
    rw [ho, Option.getD_some] at hleft
    obtain ⟨c, hc⟩ := hfound o ho
    obtain ⟨hne, hend⟩ := hl.chunk o c hc
    have hpos := List.length_pos_iff.mpr hne
    change o + c.length ≤ s.tx.nextOffset at hend
    omega
  | none =>
    rw [ho, Option.getD_none] at hleft
    refine ⟨?_, Nat.le_antisymm hle (Nat.sub_eq_zero_iff_le.mp hleft)⟩
    intro o
    by_contra hne
    obtain ⟨c, hc⟩ := Option.ne_none_iff_exists'.mp hne
    have hmem := hkeep o hne (hl.listed o c hc)
    rw [List.head?_eq_none_iff.mp ho] at hmem
    cases hmem

theorem buffered_zero {s : UdpStream} (hl : s.ledger.TxFair) (h : s.tx.buffered.2 = 0) :
    (s.books s.tx.buffered.1).Drained := by
  obtain ⟨offsets, head, he, -, -, -, -⟩ := Sending.oldestChunk_spec s.tx hl.head
  have hdrained : s.ledger.Drained := drained_of_buffered hl h
  unfold Sending.buffered
  dsimp only
  rw [he]
  exact hdrained

theorem afterAck_steps (input : Option Packet) (s : UdpStream) (now : ℚ) (hl : s.ledger.TxFair) :
    Steps input s.ledger (s.afterAck now).ledger := by
  unfold afterAck
  split
  · extract_lets left s₁
    have h₁ : Steps input s.ledger s₁.ledger := buffered_steps input s hl
    split
    · rename_i hzero
      exact h₁.trans (endStream_steps input s₁ now .drained (fun h => by cases h)
        (fun _ => buffered_zero hl hzero))
    · exact h₁.trans (flush_steps input s₁ now 0 (hl.steps h₁))
  · exact flush_steps input s now 0 hl

theorem onAck_steps (s : UdpStream) (hg : s.gone = false) (now : ℚ) (credit delay : Nat) (ranges : List (Nat × Nat))
    (hl : s.ledger.TxFair) : Steps (some (.ack credit delay ranges)) s.ledger
      (s.onAck now credit delay ranges).ledger := by
  unfold onAck
  split
  · exact afterAck_steps _ (s.credited credit) now hl
  · rename_i first rest
    have h : Steps (some (.ack credit delay (first :: rest))) s.ledger
        ((s.credited credit).onRanges now delay first (first :: rest)).ledger :=
      onRanges_steps (s.credited credit) hg now first
    exact h.trans (afterAck_steps _ _ now (hl.steps h))

theorem start_steps (input : Option Packet) (s : UdpStream) (now : ℚ) (hl : s.ledger.TxFair) :
    Steps input s.ledger (s.start now).ledger := by
  unfold start
  split
  · exact Relation.ReflTransGen.refl
  · extract_lets s₁ s₂ s₃
    have h₂ : Steps input s.ledger s₂.ledger := by
      have h₁ : s₁.ledger = s.ledger := rfl
      rw [← h₁]
      simp only [s₂]
      split
      · exact sendAck_steps input s₁ now
      · exact Relation.ReflTransGen.refl
    exact h₂.trans (flush_steps input s₂ now 0 (hl.steps h₂))

theorem repath_steps (input : Option Packet) (s : UdpStream) (now rttMs : ℚ)
    (hl : s.ledger.TxFair) : Steps input s.ledger (s.repath now rttMs).ledger := by
  unfold repath
  split
  · exact Relation.ReflTransGen.refl
  · have h₁ : Steps input s.ledger
        ({ s with tx := s.tx.rerouted now rttMs } : UdpStream).ledger :=
      Sending.rerouted_steps input s s.tx now rttMs
    have h₂ := h₁.trans (sendAck_steps input _ now)
    have h₃ := h₂.trans (flush_steps input _ now 0 (hl.steps h₂))
    exact h₃.trans (startProbe_steps input _ now)

theorem receive_steps (s : UdpStream) (now : ℚ) (p : Bytes) (hl : s.ledger.TxFair)
    (hq : s.rx.ahead.get s.rx.inOrder = none) :
    Steps (decode p) s.ledger (s.receive now p).ledger := by
  unfold receive
  split
  · exact Relation.ReflTransGen.refl
  · rename_i hgone
    extract_lets s₁
    have h₁ : s₁.ledger = s.ledger := rfl
    have hg : s₁.gone = false := by simpa [s₁] using hgone
    rw [← h₁]
    split
    · rename_i pn offset floor bytes hd
      rw [hd]
      exact onChunk_steps s₁ hg now pn offset floor bytes hq
    · rename_i credit delay ranges hd
      rw [hd]
      exact onAck_steps s₁ hg now credit delay ranges hl
    · rename_i pn hd
      rw [hd]
      exact onProbe_steps s₁ now pn
    · rename_i hd
      rw [hd]
      exact fail_steps _ s₁ .closeHeard (fun _ => rfl) (fun h => by cases h)
    · exact Relation.ReflTransGen.refl

theorem send_steps (s : UdpStream) (now : ℚ) (bytes : Bytes)
    (hl : s.ledger.TxFair) : Steps none s.ledger (s.send now bytes).1.ledger := by
  unfold send
  split
  · exact Relation.ReflTransGen.refl
  · rename_i hopen
    extract_lets left s₁ src s₂
    have hg : s.gone = false := by simpa using fun h => hopen (Or.inl h)
    have h₁ : Steps none s.ledger s₁.ledger := buffered_steps none s hl
    split
    · exact h₁
    · split
      · exact h₁
      · have h₂ : Steps none s.ledger s₂.ledger := h₁.trans (Steps.one (Step.accept bytes rfl hg))
        exact h₂.trans (flush_steps none s₂ now 0 (hl.steps h₂))

theorem close_steps (input : Option Packet) (s : UdpStream) (now : ℚ) (graceful : Bool)
    (hl : s.ledger.TxFair) : Steps input s.ledger (s.close now graceful).ledger := by
  unfold close
  split
  · exact Relation.ReflTransGen.refl
  · split
    · extract_lets left s₁
      have h₁ : Steps input s.ledger s₁.ledger := buffered_steps input s hl
      split
      · exact h₁
      · rename_i hzero
        exact h₁.trans (endStream_steps input s₁ now .drained (fun h => by cases h)
          (fun _ => buffered_zero hl (Nat.eq_zero_of_not_pos hzero)))
    · exact endStream_steps input s now .cut (fun h => by cases h) (fun h => by cases h)

theorem tick_steps (input : Option Packet) (s : UdpStream) (now t : ℚ) :
    Steps input s.ledger (s.tick now t).ledger := by
  unfold tick
  split
  · exact fail_steps input s .silent (fun h => by cases h) (fun h => by cases h)
  · split
    · exact endStream_steps input s now .peerGone (fun h => by cases h) (fun h => by cases h)
    · extract_lets s₁
      change Steps input s.ledger s₁.ledger
      simp only [s₁]
      split
      · exact sendAck_steps input s now
      · exact Relation.ReflTransGen.refl

theorem onRecovery_steps (input : Option Packet) (s : UdpStream) (now t : ℚ)
    (hl : s.ledger.TxFair) : Steps input s.ledger (s.onRecovery now t).ledger := by
  unfold onRecovery
  extract_lets s₁
  have h₁ : s₁.ledger = s.ledger := rfl
  rw [← h₁]
  split
  · exact Relation.ReflTransGen.refl
  · split
    · rw [arm_ledger]
    · split
      · have h₂ : Steps input s₁.ledger ({ s₁ with tx := s₁.tx.detectLoss t } : UdpStream).ledger :=
          Sending.detectLoss_steps input s₁ s₁.tx t
        exact h₂.trans (flush_steps input _ now 0 (hl.steps h₂))
      · split
        · exact endStream_steps input s₁ now .peerGone (fun h => by cases h) (fun h => by cases h)
        · have h₂ : Steps input s₁.ledger ({ s₁ with tx := s₁.tx.timeout } : UdpStream).ledger :=
            Sending.timeout_steps input s₁ s₁.tx
          exact h₂.trans (flush_steps input _ now 2 (hl.steps h₂))

theorem onWake_steps (input : Option Packet) (s : UdpStream) (now t : ℚ) (hl : s.ledger.TxFair) :
    Steps input s.ledger (s.onWake now t).ledger := by
  unfold onWake
  split
  · exact Relation.ReflTransGen.refl
  · split
    · exact endStream_steps input s now .linger (fun h => by cases h) (fun h => by cases h)
    · extract_lets s₁ s₂
      have h₁ : Steps input s.ledger s₁.ledger := by
        simp only [s₁]
        split
        · exact tick_steps input s now t
        · exact Relation.ReflTransGen.refl
      have h₂ : Steps input s₁.ledger s₂.ledger := by
        simp only [s₂]
        split
        · exact onRecovery_steps input s₁ now t (hl.steps h₁)
        · exact Relation.ReflTransGen.refl
      split
      · exact (h₁.trans h₂).trans (sendProbe_steps input s₂ now)
      · exact h₁.trans h₂

end UdpStream

end SeedTransport.Stream
