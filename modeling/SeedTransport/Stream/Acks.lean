import Mathlib
import SeedTransport.Stream.Offsets

set_option autoImplicit false

namespace SeedTransport.Stream

/-! What `onAck` does with the ranges of an ACK, whatever the peer writes in them. -/

namespace Sending

/-- The numbers the loop over one range visits, and the floor the next range stays below. -/
def rangeVisits (tx : Sending) (below : Option Int) (r : Nat × Nat) : List Nat × Option Int :=
  let hi := rangeTop ((tx.nextPn : Int) - 1) below r.1
  let lo : Nat := max r.2 tx.oldestPn
  if (lo : Int) > hi then ([], below)
  else (List.range' lo (hi + 1 - lo).toNat, some ((lo : Int) - 1))

/-- The numbers the loop over all ranges visits, in its order. -/
def visits (tx : Sending) : Option Int → List (Nat × Nat) → List Nat
  | _, [] => []
  | below, r :: rs => (tx.rangeVisits below r).1 ++ tx.visits (tx.rangeVisits below r).2 rs

theorem visits_congr {tx tx' : Sending} (hn : tx'.nextPn = tx.nextPn) (ho : tx'.oldestPn = tx.oldestPn)
    (below : Option Int) (ranges : List (Nat × Nat)) : tx'.visits below ranges = tx.visits below ranges := by
  induction ranges generalizing below with
  | nil => rfl
  | cons r rs ih => simp only [visits, ih, rangeVisits, hn, ho]

theorem ackRange_visits (largest : Int) (a : (Sending × Option Flight) × Option Int) (r : Nat × Nat) :
    ackRange largest a r = ((a.1.1.rangeVisits a.2 r).1.foldl (ackPacket largest) a.1,
      (a.1.1.rangeVisits a.2 r).2) := by
  unfold ackRange rangeVisits
  dsimp only
  split <;> rfl

/-- The loop over the ranges acks what it visits, one number after another. -/
theorem ackRanges_visits (largest : Int) (ranges : List (Nat × Nat))
    (a : (Sending × Option Flight) × Option Int) :
    (ranges.foldl (ackRange largest) a).1 = (a.1.1.visits a.2 ranges).foldl (ackPacket largest) a.1 := by
  induction ranges generalizing a with
  | nil => rfl
  | cons r rs ih =>
    have hs := ackPackets_shrinks largest (a.1.1.rangeVisits a.2 r).1 a.1
    rw [List.foldl_cons, ih, ackRange_visits, visits, List.foldl_append]
    dsimp only
    rw [visits_congr hs.nextPn hs.oldestPn]

theorem ackNamed_visits (tx : Sending) (largest : Int) (ranges : List (Nat × Nat)) :
    UdpStream.ackNamed tx largest ranges =
      (tx.visits none ranges).foldl (ackPacket largest) (tx, none) :=
  ackRanges_visits largest ranges ((tx, none), none)

/-- Below a floor, for numbers. -/
def Under (below : Option Int) (pn : Nat) : Prop := ∀ b, below = some b → (pn : Int) ≤ b

theorem rangeTop_under (sent : Int) (below : Option Int) (hi pn : Nat) :
    (pn : Int) ≤ rangeTop sent below hi ↔ pn ≤ hi ∧ (pn : Int) ≤ sent ∧ Under below pn := by
  cases below with
  | none => simp [rangeTop, Under]
  | some b => simp [rangeTop, Under, and_assoc]

/-- One range's loop visits exactly the numbers that the range names, that were sent, that may
be in flight and that lie below the ranges before. -/
theorem mem_rangeVisits (tx : Sending) (below : Option Int) (r : Nat × Nat) (pn : Nat) :
    pn ∈ (tx.rangeVisits below r).1 ↔
      r.2 ≤ pn ∧ pn ≤ r.1 ∧ tx.oldestPn ≤ pn ∧ pn < tx.nextPn ∧ Under below pn := by
  have htop := rangeTop_under ((tx.nextPn : Int) - 1) below r.1 pn
  unfold rangeVisits
  dsimp only
  split
  · rename_i hgt
    constructor
    · intro h
      cases h
    · rintro ⟨h₁, h₂, h₃, h₄, h₅⟩
      have := htop.mpr ⟨h₂, by omega, h₅⟩
      omega
  · rename_i hle
    rw [List.mem_range'_1]
    constructor
    · rintro ⟨h₁, h₂⟩
      obtain ⟨h₃, h₄, h₅⟩ := htop.mp (by omega)
      exact ⟨by omega, h₃, by omega, by omega, h₅⟩
    · rintro ⟨h₁, h₂, h₃, h₄, h₅⟩
      have := htop.mpr ⟨h₂, by omega, h₅⟩
      exact ⟨by omega, by omega⟩

/-- What is left below after a range lies below what the range visited. -/
theorem rangeVisits_below (tx : Sending) (below : Option Int) (r : Nat × Nat) {pn k : Nat}
    (hk : k ∈ (tx.rangeVisits below r).1) (hpn : Under (tx.rangeVisits below r).2 pn) : pn < k := by
  revert hk hpn
  unfold rangeVisits
  dsimp only
  split
  · intro hk
    cases hk
  · intro hk hpn
    rw [List.mem_range'_1] at hk
    have := hpn _ rfl
    omega

/-- The floor only goes down. -/
theorem rangeVisits_under (tx : Sending) (below : Option Int) (r : Nat × Nat) {pn : Nat}
    (hpn : Under (tx.rangeVisits below r).2 pn) : Under below pn := by
  by_cases hnil : (tx.rangeVisits below r).1 = []
  · have hsame : (tx.rangeVisits below r).2 = below := by
      revert hnil
      unfold rangeVisits
      dsimp only
      split
      · exact fun _ => rfl
      · intro hnil
        have := congrArg List.length hnil
        rw [List.length_range', List.length_nil] at this
        omega
    rwa [hsame] at hpn
  · obtain ⟨k, hk⟩ := List.exists_mem_of_ne_nil _ hnil
    have hlt := rangeVisits_below tx below r hk hpn
    intro b hb
    have := ((mem_rangeVisits tx below r k).mp hk).2.2.2.2 b hb
    omega

theorem mem_visits {tx : Sending} {below : Option Int} {ranges : List (Nat × Nat)} {pn : Nat}
    (h : pn ∈ tx.visits below ranges) :
    names ranges pn = true ∧ tx.oldestPn ≤ pn ∧ pn < tx.nextPn ∧ Under below pn := by
  induction ranges generalizing below with
  | nil => cases h
  | cons r rs ih =>
    rcases List.mem_append.mp h with h | h
    · obtain ⟨h₁, h₂, h₃, h₄, h₅⟩ := (mem_rangeVisits tx below r pn).mp h
      exact ⟨names_of_mem List.mem_cons_self h₂ h₁, h₃, h₄, h₅⟩
    · obtain ⟨hn, h₃, h₄, h₅⟩ := ih h
      refine ⟨?_, h₃, h₄, rangeVisits_under tx below r h₅⟩
      simp only [names, List.any_cons, Bool.or_eq_true]
      exact Or.inr hn

/-- No number is visited twice, however the ranges overlap. -/
theorem visits_nodup (tx : Sending) (below : Option Int) (ranges : List (Nat × Nat)) :
    (tx.visits below ranges).Nodup := by
  induction ranges generalizing below with
  | nil => exact List.nodup_nil
  | cons r rs ih =>
    refine List.nodup_append.mpr ⟨?_, ih _, fun k hk pn hpn => ?_⟩
    · unfold rangeVisits
      dsimp only
      split
      · exact List.nodup_nil
      · exact List.nodup_range'
    · have := rangeVisits_below tx below r hk (mem_visits hpn).2.2.2
      omega

/-- The loop visits no more numbers than there are from `oldestPn` up to `nextPn`. -/
theorem visits_length (tx : Sending) (below : Option Int) (ranges : List (Nat × Nat)) :
    (tx.visits below ranges).length ≤ tx.nextPn - tx.oldestPn := by
  have hsub : tx.visits below ranges ⊆ List.range' tx.oldestPn (tx.nextPn - tx.oldestPn) := by
    intro pn hpn
    obtain ⟨-, h₁, h₂, -⟩ := mem_visits hpn
    rw [List.mem_range'_1]
    omega
  have hle := ((visits_nodup tx below ranges).subperm hsub).length_le
  rwa [List.length_range'] at hle

/-- With descending, disjoint ranges the loop visits every number named that may be in flight. -/
theorem visits_complete {tx : Sending} {below : Option Int} {ranges : List (Nat × Nat)}
    (hd : ranges.Pairwise (fun a b => b.1 < a.2)) {pn : Nat} (hn : names ranges pn = true)
    (ho : tx.oldestPn ≤ pn) (hs : pn < tx.nextPn) (hu : Under below pn) :
    pn ∈ tx.visits below ranges := by
  induction ranges generalizing below with
  | nil => cases hn
  | cons r rs ih =>
    obtain ⟨hr, hd⟩ := List.pairwise_cons.mp hd
    simp only [names, List.any_cons, Bool.or_eq_true, decide_eq_true_eq] at hn
    rcases hn with hn | hn
    · exact List.mem_append_left _ ((mem_rangeVisits tx below r pn).mpr ⟨hn.2, hn.1, ho, hs, hu⟩)
    · refine List.mem_append_right _ (ih hd hn ?_)
      obtain ⟨r', hr', hle⟩ := List.any_eq_true.mp hn
      have hlt := hr r' hr'
      have hle : pn ≤ r'.1 ∧ pn ≥ r'.2 := of_decide_eq_true hle
      unfold rangeVisits
      dsimp only
      split
      · exact hu
      · intro b hb
        have := Option.some.inj hb
        omega

/-- Acking one number after another takes just those out of flight, and their sizes off. -/
theorem ackPackets_effect (largest : Int) (pns : List Nat) (hn : pns.Nodup)
    (a : Sending × Option Flight) :
    (∀ pn, (pns.foldl (ackPacket largest) a).1.inFlight.get pn =
      if pn ∈ pns then none else a.1.inFlight.get pn) ∧
    (pns.foldl (ackPacket largest) a).1.bytesInFlight = a.1.bytesInFlight -
      (pns.map (fun pn => ((a.1.inFlight.get pn).map Flight.size).getD 0)).sum := by
  induction pns generalizing a with
  | nil => exact ⟨fun _ => rfl, by simp⟩
  | cons k pns ih =>
    obtain ⟨hk, hn⟩ := List.nodup_cons.mp hn
    obtain ⟨hget, hsum⟩ := ih hn (ackPacket largest a k)
    have hone : (∀ pn, (ackPacket largest a k).1.inFlight.get pn =
        if pn = k then none else a.1.inFlight.get pn) ∧
        (ackPacket largest a k).1.bytesInFlight =
          a.1.bytesInFlight - ((a.1.inFlight.get k).map Flight.size).getD 0 := by
      unfold ackPacket
      dsimp only
      split
      · rename_i hf
        refine ⟨fun pn => ?_, by rw [hf]; simp⟩
        split
        · rename_i he
          rw [he, hf]
        · rfl
      · rename_i f hf
        exact ⟨fun pn => OrdMap.get_delete _ _ _, by rw [hf]; rfl⟩
    obtain ⟨hone, hbytes⟩ := hone
    rw [List.foldl_cons]
    constructor
    · intro pn
      rw [hget, hone]
      by_cases hpk : pn = k
      · simp [hpk]
      · simp [hpk]
    · have hrest : pns.map (fun pn => (((ackPacket largest a k).1.inFlight.get pn).map Flight.size).getD 0) =
          pns.map (fun pn => ((a.1.inFlight.get pn).map Flight.size).getD 0) := by
        refine List.map_congr_left fun pn hpn => ?_
        rw [hone, if_neg (fun he : pn = k => hk (by rw [← he]; exact hpn))]
      rw [hsum, hrest, hbytes, List.map_cons, List.sum_cons]
      push_cast
      omega

/-- What to send next is chosen from the chunks alone. -/
theorem nextChunk_inFlight (tx : Sending) (probe : Bool) :
    (tx.nextChunk probe).1.inFlight = tx.inFlight := by
  have hfit : ∀ (tx : Sending) (o : Nat) (c : Bytes), (tx.fit o c).inFlight = tx.inFlight := by
    intro tx o c
    unfold fit
    dsimp only
    split <;> rfl
  have hold : ∀ tx : Sending, tx.oldestChunk.1.inFlight = tx.inFlight := by
    intro tx
    unfold oldestChunk
    dsimp only
    split <;> rfl
  have hlost : (tx.nextLost tx.lost.keys).1.inFlight = tx.inFlight := by
    generalize tx.lost.keys = offsets
    induction offsets generalizing tx with
    | nil => rfl
    | cons o rest ih =>
      unfold nextLost
      dsimp only
      split
      · rw [hfit]
      · rw [ih]
  rcases nextChunk_cases tx probe with ⟨o, -, he⟩ | ⟨-, ⟨-, he⟩ | ⟨-, -, o, -, he⟩ | ⟨-, he⟩⟩
  · rw [he, hlost]
  · rw [he, ← hlost]
    rfl
  · rw [he, hfit, hold, hlost]
  · rw [he]
    split
    · rw [hold, hlost]
    · rw [hlost]

theorem learns_inFlight (tx : Sending) (now : ℚ) (delay : Nat) (largest : Int)
    (newest : Option Flight) (ranges : List (Nat × Nat)) :
    (tx.learns now delay largest newest ranges).inFlight = tx.inFlight := by
  have hclear : (tx.clearSuspects ranges).inFlight = tx.inFlight := by
    unfold clearSuspects
    dsimp only
    split
    · split <;> rfl
    · rfl
  have hsample : ∀ (tx : Sending) (latest delay : ℚ), (tx.sample latest delay).inFlight = tx.inFlight := by
    intro tx latest delay
    unfold sample
    split <;> rfl
  unfold learns
  cases newest with
  | none => exact hclear
  | some f => exact (hsample _ _ _).trans hclear

/-! ### The search for losses -/

/-- How long after it was sent a packet an ack has passed is lost. -/
def lossDelay (tx : Sending) : ℚ := max (9 / 8 * max tx.latestRtt tx.srtt) 1

/-- The walk of `detectLoss` over what is in flight. -/
def lossScan (tx : Sending) (t : ℚ) : LossScan :=
  let tx₁ := advanceOldest { tx with lossTime := ⊤ }
  (List.range' tx₁.oldestPn (tx₁.largestAcked - tx₁.oldestPn).toNat).foldl
    (scanPacket t tx.lossDelay (persistentPtos * tx.pto)) { tx := tx₁ }

theorem detectLoss_eq (tx : Sending) (t : ℚ) :
    tx.detectLoss t = (cutWindow t (tx.lossScan t)).advanceOldest := rfl

/-- Whether a packet, sent `f`, is lost at `t`: an ack has passed it, by three or by time. -/
def Passed (tx : Sending) (t delay : ℚ) (pn : Nat) (f : Flight) : Prop :=
  tx.largestAcked - pn ≥ 3 ∨ f.time ≤ t - delay

theorem scanPacket_effect (t delay persistence : ℚ) (a : LossScan) (k : Nat) :
    (scanPacket t delay persistence a k).tx.largestAcked = a.tx.largestAcked ∧
    (scanPacket t delay persistence a k).tx.recoveryStart = a.tx.recoveryStart ∧
    (((∀ f, a.tx.inFlight.get k = some f → ¬ Passed a.tx t delay k f) ∧
        (scanPacket t delay persistence a k).lost = a.lost ∧
        (scanPacket t delay persistence a k).lostSentAt = a.lostSentAt ∧
        (scanPacket t delay persistence a k).tx.inFlight = a.tx.inFlight) ∨
      ∃ f, a.tx.inFlight.get k = some f ∧ Passed a.tx t delay k f ∧
        (scanPacket t delay persistence a k).lost = a.lost ++ [k] ∧
        (scanPacket t delay persistence a k).lostSentAt = max a.lostSentAt (f.time : WithBot ℚ) ∧
        (scanPacket t delay persistence a k).tx.inFlight = a.tx.inFlight.delete k) := by
  unfold scanPacket
  cases hf : a.tx.inFlight.get k with
  | none => exact ⟨rfl, rfl, Or.inl ⟨fun f hf' => (nomatch hf'), rfl, rfl, rfl⟩⟩
  | some f =>
    dsimp only
    split
    · rename_i hlost
      split_ifs <;> exact ⟨rfl, rfl, Or.inr ⟨f, rfl, hlost, rfl, rfl, rfl⟩⟩
    · rename_i hkept
      exact ⟨rfl, rfl, Or.inl ⟨fun f' hf' => (Option.some.inj hf') ▸ hkept, rfl, rfl, rfl⟩⟩

/-- The walk takes out of flight what it declares lost: what an ack has passed, of the numbers
it looks at. -/
theorem scanPackets_effect (t delay persistence : ℚ) (pns : List Nat) (hn : pns.Nodup) (a : LossScan) :
    ∃ new : List Nat, (pns.foldl (scanPacket t delay persistence) a).lost = a.lost ++ new ∧
      new.Sublist pns ∧
      (∀ pn, pn ∈ new ↔ pn ∈ pns ∧ ∃ f, a.tx.inFlight.get pn = some f ∧ Passed a.tx t delay pn f) ∧
      (∀ pn, (pns.foldl (scanPacket t delay persistence) a).tx.inFlight.get pn =
        if pn ∈ new then none else a.tx.inFlight.get pn) := by
  induction pns generalizing a with
  | nil => exact ⟨[], by simp, List.Sublist.refl _, by simp, by simp⟩
  | cons k pns ih =>
    obtain ⟨hk, hn⟩ := List.nodup_cons.mp hn
    obtain ⟨new, hlost, hsub, hmem, hget⟩ := ih hn (scanPacket t delay persistence a k)
    obtain ⟨hlargest, -, hstep⟩ := scanPacket_effect t delay persistence a k
    have hpassed : ∀ pn f, Passed (scanPacket t delay persistence a k).tx t delay pn f ↔
        Passed a.tx t delay pn f := fun pn f => by simp only [Passed, hlargest]
    rw [List.foldl_cons]
    have hother : ∀ pn, pn ∈ pns → (scanPacket t delay persistence a k).tx.inFlight.get pn =
        a.tx.inFlight.get pn := by
      intro pn hpn
      rcases hstep with ⟨-, -, -, he⟩ | ⟨f, -, -, -, -, he⟩
      · rw [he]
      · rw [he, OrdMap.get_delete, if_neg (fun hpk : pn = k => hk (hpk ▸ hpn))]
    have hmem : ∀ pn, pn ∈ new ↔ pn ∈ pns ∧ ∃ f, a.tx.inFlight.get pn = some f ∧
        Passed a.tx t delay pn f := by
      intro pn
      rw [hmem]
      refine and_congr_right fun hpn => ?_
      simp only [hother pn hpn, hpassed]
    have hknew : k ∉ new := fun h => hk ((hmem k).mp h).1
    rcases hstep with ⟨hno, hsame, -, he⟩ | ⟨f, hf, hyes, hadd, -, he⟩
    · refine ⟨new, by rw [hlost, hsame], hsub.trans (List.sublist_cons_self _ _), fun pn => ?_,
        fun pn => by rw [hget, he]⟩
      rw [hmem]
      constructor
      · rintro ⟨hpn, hf⟩
        exact ⟨List.mem_cons_of_mem _ hpn, hf⟩
      · rintro ⟨hpn, f, hf, hp⟩
        rcases List.mem_cons.mp hpn with rfl | hpn
        · exact absurd hp (hno f hf)
        · exact ⟨hpn, f, hf, hp⟩
    · refine ⟨k :: new, by rw [hlost, hadd, List.append_assoc]; rfl, hsub.cons_cons k, fun pn => ?_,
        fun pn => ?_⟩
      · rw [List.mem_cons, hmem, List.mem_cons]
        constructor
        · rintro (rfl | ⟨hpn, hp⟩)
          · exact ⟨Or.inl rfl, f, hf, hyes⟩
          · exact ⟨Or.inr hpn, hp⟩
        · rintro ⟨rfl | hpn, hp⟩
          · exact Or.inl rfl
          · exact Or.inr ⟨hpn, hp⟩
      · rw [hget, he, OrdMap.get_delete]
        by_cases hpk : pn = k
        · simp [hpk]
        · simp [hpk]

/-- What `detectLoss` declares lost at `t`, in the order of their numbers. -/
def declared (tx : Sending) (t : ℚ) : List Nat := (tx.lossScan t).lost

/-- What `detectLoss` declares lost: the packets in flight that an ack has passed. -/
theorem mem_declared {tx : Sending} {t : ℚ} (hold : ∀ pn f, tx.inFlight.get pn = some f → tx.oldestPn ≤ pn)
    (pn : Nat) : pn ∈ tx.declared t ↔ (pn : Int) < tx.largestAcked ∧
      ∃ f, tx.inFlight.get pn = some f ∧ Passed tx t tx.lossDelay pn f := by
  obtain ⟨hlo, -, hnone⟩ := firstInFlight_spec tx.inFlight (tx.nextPn - tx.oldestPn) tx.oldestPn
  obtain ⟨new, hlost, -, hmem, -⟩ := scanPackets_effect t tx.lossDelay (persistentPtos * tx.pto)
    (List.range' (advanceOldest { tx with lossTime := ⊤ }).oldestPn
      ((advanceOldest { tx with lossTime := ⊤ }).largestAcked -
        (advanceOldest { tx with lossTime := ⊤ }).oldestPn).toNat) List.nodup_range'
    { tx := advanceOldest { tx with lossTime := ⊤ } }
  have hdeclared : tx.declared t = new := hlost
  rw [hdeclared, hmem, List.mem_range'_1]
  show ((firstInFlight tx.inFlight (tx.nextPn - tx.oldestPn) tx.oldestPn ≤ pn ∧ pn <
    firstInFlight tx.inFlight (tx.nextPn - tx.oldestPn) tx.oldestPn + (tx.largestAcked -
      firstInFlight tx.inFlight (tx.nextPn - tx.oldestPn) tx.oldestPn).toNat) ∧
    ∃ f, tx.inFlight.get pn = some f ∧ Passed tx t tx.lossDelay pn f) ↔ _
  constructor
  · rintro ⟨⟨h₁, h₂⟩, hf⟩
    exact ⟨by omega, hf⟩
  · rintro ⟨hlt, f, hf, hp⟩
    have hge : firstInFlight tx.inFlight (tx.nextPn - tx.oldestPn) tx.oldestPn ≤ pn := by
      by_contra h
      rw [hnone pn (hold pn f hf) (by omega)] at hf
      cases hf
    exact ⟨⟨hge, by omega⟩, f, hf, hp⟩

theorem declared_nodup (tx : Sending) (t : ℚ) : (tx.declared t).Nodup := by
  obtain ⟨new, hlost, hsub, -, -⟩ := scanPackets_effect t tx.lossDelay (persistentPtos * tx.pto)
    (List.range' (advanceOldest { tx with lossTime := ⊤ }).oldestPn
      ((advanceOldest { tx with lossTime := ⊤ }).largestAcked -
        (advanceOldest { tx with lossTime := ⊤ }).oldestPn).toNat) List.nodup_range'
    { tx := advanceOldest { tx with lossTime := ⊤ } }
  have hdeclared : tx.declared t = new := hlost
  rw [hdeclared]
  exact hsub.nodup List.nodup_range'

theorem detectLoss_inFlight (tx : Sending) (t : ℚ) (pn : Nat) :
    (tx.detectLoss t).inFlight.get pn = if pn ∈ tx.declared t then none else tx.inFlight.get pn := by
  obtain ⟨new, hlost, -, -, hget⟩ := scanPackets_effect t tx.lossDelay (persistentPtos * tx.pto)
    (List.range' (advanceOldest { tx with lossTime := ⊤ }).oldestPn
      ((advanceOldest { tx with lossTime := ⊤ }).largestAcked -
        (advanceOldest { tx with lossTime := ⊤ }).oldestPn).toNat) List.nodup_range'
    { tx := advanceOldest { tx with lossTime := ⊤ } }
  have hdeclared : tx.declared t = new := hlost
  have hcut : (cutWindow t (tx.lossScan t)).inFlight = (tx.lossScan t).tx.inFlight := by
    obtain ⟨_, _, _, _, _, he⟩ := cutWindow_rest t (tx.lossScan t)
    rw [he]
  rw [hdeclared, detectLoss_eq]
  show (cutWindow t (tx.lossScan t)).inFlight.get pn = _
  rw [hcut]
  exact hget pn

end Sending

namespace UdpStream

theorem tx_of_desk {s s' : UdpStream} (h : s'.desk = s.desk) : s'.tx = s.tx := congrArg Prod.fst h

/-- What is in flight when a flush starts is in flight when it ends. -/
theorem flushLoop_inFlight (now : ℚ) (n probes : Nat) {s : UdpStream} (h : s.Numbered) {pn : Nat}
    {f : Flight} (hf : s.tx.inFlight.get pn = some f) :
    ∃ f', (flushLoop now n probes s).tx.inFlight.get pn = some f' := by
  induction n generalizing probes s f with
  | zero => exact ⟨f, hf⟩
  | succ n ih =>
    have hnext := Sending.nextChunk_shrinks s.tx (decide (probes > 0))
    have hsame := Sending.nextChunk_inFlight s.tx (decide (probes > 0))
    unfold flushLoop
    split
    · exact ⟨f, hf⟩
    · split
      · rename_i tx he
        rw [he] at hsame
        exact ⟨f, by rw [← hf, ← hsame]⟩
      · rename_i tx o he
        rw [he] at hnext hsame
        have h₁ := shrink_numbered h hnext
        refine ih (probes - 1) (sendChunk_numbered h₁ now o _) (f := f) ?_
        show (tx.inFlight.set tx.nextPn _).get pn = some f
        have hlt : pn < tx.nextPn := by
          have := (h.flying pn f hf).2
          rw [hnext.nextPn]
          exact this
        rw [OrdMap.get_set, if_neg (Nat.ne_of_lt hlt), ← hf, ← hsame]

theorem flush_inFlight (now : ℚ) (probes : Nat) {s : UdpStream} (h : s.Numbered) {pn : Nat}
    {f : Flight} (hf : s.tx.inFlight.get pn = some f) :
    ∃ f', (s.flush now probes).tx.inFlight.get pn = some f' := by
  unfold flush
  split
  · exact ⟨f, hf⟩
  · rw [tx_of_desk (arm_desk _)]
    exact flushLoop_inFlight now (flushBound s.tx + probes + 1) probes h hf

theorem afterAck_inFlight (now : ℚ) {s : UdpStream} (h : s.Numbered) {pn : Nat} {f : Flight}
    (hf : s.tx.inFlight.get pn = some f) : ∃ f', (s.afterAck now).tx.inFlight.get pn = some f' := by
  have hsame : s.tx.buffered.1.inFlight = s.tx.inFlight := by
    unfold Sending.buffered Sending.oldestChunk
    dsimp only
    split <;> rfl
  unfold afterAck
  split
  · dsimp only
    split
    · rw [tx_of_desk (endStream_desk _ _ _)]
      exact ⟨f, by rw [hsame, hf]⟩
    · exact flush_inFlight now 0 (buffered_numbered h) (f := f) (by
        show s.tx.buffered.1.inFlight.get pn = some f
        rw [hsame, hf])
  · exact flush_inFlight now 0 h hf

/-- The range loop of `onAck` on the sender as the ACK finds it. -/
def rangeLoop (s : UdpStream) (ranges : List (Nat × Nat)) : Sending :=
  match ranges with
  | [] => s.tx
  | first :: _ => (ackNamed s.tx (s.largestOf first) ranges).1

/-- The stream as `onAck` comes to the ranges. -/
def heard (s : UdpStream) (now : ℚ) (credit : Nat) : UdpStream :=
  ({ s with lastHeard := now } : UdpStream).credited credit

theorem heard_numbered {s : UdpStream} (h : s.Numbered) (now : ℚ) (credit : Nat) :
    (s.heard now credit).Numbered :=
  Stream.Numbered.shrink h (Sending.Shrinks.of_eq rfl rfl rfl rfl rfl)

theorem receive_ack {s : UdpStream} (hg : s.gone = false) (now : ℚ) {p : Bytes} {credit delay : Nat}
    {ranges : List (Nat × Nat)} (hp : decode p = some (.ack credit delay ranges)) :
    s.receive now p = ({ s with lastHeard := now } : UdpStream).onAck now credit delay ranges := by
  unfold receive
  rw [if_neg (by rw [hg]; exact Bool.false_ne_true)]
  dsimp only
  rw [hp]

theorem rangeLoop_effect (s : UdpStream) (ranges : List (Nat × Nat)) :
    (∀ pn, (s.rangeLoop ranges).inFlight.get pn =
      if pn ∈ s.tx.visits none ranges then none else s.tx.inFlight.get pn) ∧
    (s.rangeLoop ranges).bytesInFlight = s.tx.bytesInFlight -
      ((s.tx.visits none ranges).map
        (fun pn => ((s.tx.inFlight.get pn).map Flight.size).getD 0)).sum := by
  unfold rangeLoop
  split
  · exact ⟨fun _ => rfl, by simp [Sending.visits]⟩
  · rw [Sending.ackNamed_visits]
    exact Sending.ackPackets_effect _ _ (Sending.visits_nodup _ _ _) (s.tx, none)

theorem heard_visits (s : UdpStream) (now : ℚ) (credit : Nat) (ranges : List (Nat × Nat)) :
    (s.heard now credit).tx.visits none ranges = s.tx.visits none ranges :=
  Sending.visits_congr (show (s.heard now credit).tx.nextPn = s.tx.nextPn from rfl)
    (show (s.heard now credit).tx.oldestPn = s.tx.oldestPn from rfl) none ranges

theorem tookAcks_inFlight (s : UdpStream) (first : Nat × Nat) (ranges : List (Nat × Nat)) :
    (s.tookAcks first ranges).tx.inFlight = (ackNamed s.tx (s.largestOf first) ranges).1.inFlight := by
  unfold tookAcks probeAcked
  dsimp only
  split_ifs <;> rfl

theorem beforeLoss_inFlight (s : UdpStream) (now : ℚ) (delay : Nat) (first : Nat × Nat)
    (ranges : List (Nat × Nat)) : (s.beforeLoss now delay first ranges).inFlight =
      (ackNamed s.tx (s.largestOf first) ranges).1.inFlight :=
  (Sending.learns_inFlight _ _ _ _ _ _).trans (tookAcks_inFlight s first ranges)

theorem afterLoss_inFlight (s : UdpStream) (now : ℚ) : (s.afterLoss now).tx.inFlight = s.tx.inFlight := by
  unfold afterLoss startProbe sendProbe
  dsimp only
  split_ifs <;> rfl

/-- With ranges, what `onAck` takes out of flight is what its loop visits and what it then
declares lost. -/
theorem onRanges_removes {s : UdpStream} (h : s.Numbered) (now : ℚ) (delay : Nat) (first : Nat × Nat)
    (rest : List (Nat × Nat)) {pn : Nat} {f : Flight} (hf : s.tx.inFlight.get pn = some f)
    (hnone : ((s.onRanges now delay first (first :: rest)).afterAck now).tx.inFlight.get pn = none) :
    pn ∈ s.tx.visits none (first :: rest) ∨
      pn ∈ (s.beforeLoss now delay first (first :: rest)).declared now := by
  by_contra hno
  rw [not_or] at hno
  have hloop : (ackNamed s.tx (s.largestOf first) (first :: rest)).1.inFlight.get pn = some f := by
    have hget := (rangeLoop_effect s (first :: rest)).1 pn
    rw [if_neg hno.1] at hget
    exact hget.trans hf
  have hkept : (s.onRanges now delay first (first :: rest)).tx.inFlight.get pn = some f := by
    rw [onRanges_eq, afterLoss_inFlight]
    show ((s.beforeLoss now delay first (first :: rest)).detectLoss now).inFlight.get pn = _
    rw [Sending.detectLoss_inFlight, if_neg hno.2, beforeLoss_inFlight, hloop]
  obtain ⟨f', hf'⟩ := afterAck_inFlight now (onRanges_numbered h now delay first (first :: rest)) hkept
  rw [hf'] at hnone
  cases hnone

end UdpStream

/-- What an ACK does to a sender in any state it can be in, whatever ranges the peer wrote: the
range loop visits each number at most once, no more than there are from `oldestPn` to `nextPn`,
and only numbers that the ranges name; of the packets in flight it removes exactly those it
visits, with exactly their sizes, and with descending disjoint ranges all those named. What
else `onAck` removes it declares lost: packets below the largest number acked, which is one
that was sent. -/
theorem ack_exact {s : UdpStream} (h : Run s) (hg : s.gone = false) (now : ℚ) {p : Bytes}
    {credit delay : Nat} {ranges : List (Nat × Nat)} (hp : decode p = some (.ack credit delay ranges)) :
    (s.tx.visits none ranges).Nodup ∧
    (s.tx.visits none ranges).length ≤ s.tx.nextPn - s.tx.oldestPn ∧
    (∀ pn ∈ s.tx.visits none ranges, names ranges pn = true) ∧
    (∀ pn, ((s.heard now credit).rangeLoop ranges).inFlight.get pn =
      if pn ∈ s.tx.visits none ranges then none else s.tx.inFlight.get pn) ∧
    ((s.heard now credit).rangeLoop ranges).bytesInFlight = s.tx.bytesInFlight -
      ((s.tx.visits none ranges).map
        (fun pn => ((s.tx.inFlight.get pn).map Flight.size).getD 0)).sum ∧
    (ranges.Pairwise (fun a b => b.1 < a.2) → ∀ pn, names ranges pn = true →
      ((s.heard now credit).rangeLoop ranges).inFlight.get pn = none) ∧
    (∀ pn f, s.tx.inFlight.get pn = some f → (s.receive now p).tx.inFlight.get pn = none →
      names ranges pn = true ∨
        ∃ first rest, ranges = first :: rest ∧
          pn ∈ ((s.heard now credit).beforeLoss now delay first ranges).declared now ∧
          (pn : Int) < ((s.heard now credit).beforeLoss now delay first ranges).largestAcked) ∧
    (s.receive now p).tx.largestAcked < (s.receive now p).tx.nextPn := by
  have hnum := UdpStream.heard_numbered h.numbered now credit
  obtain ⟨hget, hbytes⟩ := UdpStream.rangeLoop_effect (s.heard now credit) ranges
  rw [UdpStream.heard_visits] at hget hbytes
  refine ⟨Sending.visits_nodup _ _ _, Sending.visits_length _ _ _, fun pn hpn =>
    (Sending.mem_visits hpn).1, hget, hbytes, fun hd pn hn => ?_, fun pn f hf hnone => ?_,
    (h.receive now p).numbered.acked⟩
  · rw [hget]
    split
    · rfl
    · rename_i hout
      rw [Option.eq_none_iff_forall_ne_some]
      intro f hf
      obtain ⟨h₁, h₂⟩ := h.numbered.flying pn f hf
      exact hout (Sending.visits_complete hd hn h₁ h₂ fun _ hb => (by cases hb))
  · rw [UdpStream.receive_ack hg now hp] at hnone
    cases ranges with
    | nil =>
      change ((s.heard now credit).afterAck now).tx.inFlight.get pn = none at hnone
      obtain ⟨f', hf'⟩ := UdpStream.afterAck_inFlight now hnum hf
      rw [hf'] at hnone
      cases hnone
    | cons first rest =>
      rcases UdpStream.onRanges_removes hnum now delay first rest hf hnone with hv | hl
      · exact Or.inl (Sending.mem_visits hv).1
      · have hb := UdpStream.beforeLoss_numbered hnum now delay first (first :: rest)
        exact Or.inr ⟨first, rest, rfl, hl,
          ((Sending.mem_declared (fun pn f hf => (hb.flying pn f hf).1) pn).mp hl).1⟩

/-- A stream with four packets in flight. -/
def fourSent : UdpStream :=
  ((((({} : UdpStream).call 0 .start).call 0 (.send [1])).call 0 (.send [2])).call 0
    (.send [3])).call 0 (.send [4])

theorem fourSent_run : Run fourSent :=
  ((((Run.new.call 0 .start).call 0 (.send [1])).call 0 (.send [2])).call 0 (.send [3])).call 0
    (.send [4])

/-- An ACK of the last of four packets also takes the first out of flight, as lost. -/
theorem ack_removes_unnamed : Run fourSent ∧ fourSent.gone = false ∧
    decode (encode (.ack initialCredit 0 [(3, 3)])) = some (.ack initialCredit 0 [(3, 3)]) ∧
    fourSent.tx.inFlight.has 0 = true ∧ names [(3, 3)] 0 = false ∧
    (fourSent.receive 1 (encode (.ack initialCredit 0 [(3, 3)]))).tx.inFlight.has 0 = false :=
  ⟨fourSent_run, by decide +kernel, by decide +kernel, by decide +kernel, by decide, by decide +kernel⟩

/-- Overlapping, ascending ranges that also name numbers never sent: each packet once. -/
theorem ack_exact_overlapping : (fourSent.tx.visits none [(1, 0), (2, 0), (9, 1)]).length ≤
    fourSent.tx.nextPn - fourSent.tx.oldestPn :=
  (ack_exact fourSent_run (by decide +kernel) 1
    (show decode (encode (.ack initialCredit 0 [(1, 0), (2, 0), (9, 1)])) =
      some (.ack initialCredit 0 [(1, 0), (2, 0), (9, 1)]) by decide +kernel)).2.1

end SeedTransport.Stream
