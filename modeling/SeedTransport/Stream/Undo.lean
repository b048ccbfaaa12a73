import Mathlib
import SeedTransport.Stream.Books

set_option autoImplicit false

namespace SeedTransport.Stream

/-! The undo of a window cut: an observer counts what each loss episode declared lost and what
acks have named since, and the sender's `suspects` and `undo` are held against its notes. -/

/-- What an observer notes of the loss episode under way. -/
structure Episode where
  /-- The window and the threshold that the last cut found; none before any cut, and once the
  path has moved since. -/
  cut : Option Undo := none
  /-- The packets sent since that cut are numbered from here. -/
  first : Nat := 0
  /-- What was declared lost since that cut, and which of it no ack has named since. -/
  lost : List Nat := []
  unnamed : List Nat := []
  /-- Whether acks have named all of it while the cut could be undone. -/
  undone : Bool := false

namespace Episode

/-- Whether the cut stands to be undone: the path has not moved, the episode has lost no more
than `maxSuspects`, and it was not undone before. -/
def pending (e : Episode) : Bool :=
  e.cut.isSome && decide (e.lost.length ≤ maxSuspects) && !e.undone

/-- An ack names what its ranges name. -/
def named (e : Episode) (ranges : List (Nat × Nat)) : Episode :=
  { e with
    unnamed := e.unnamed.filter (fun pn => !names ranges pn)
    undone := e.undone || (e.pending && (e.unnamed.filter (fun pn => !names ranges pn)).isEmpty) }

/-- The path moves. -/
def moved (e : Episode) : Episode := { e with cut := none }

end Episode

/-- Whether `detectLoss` at `t` cuts the window. -/
def Sending.Cuts (tx : Sending) (t : ℚ) : Prop := (tx.lossScan t).lostSentAt > tx.recoveryStart

instance (tx : Sending) (t : ℚ) : Decidable (tx.Cuts t) := inferInstanceAs (Decidable (_ < _))

/-- The search of `detectLoss` at `t`: a cut begins an episode, other losses join it. -/
def Episode.search (e : Episode) (tx : Sending) (t : ℚ) : Episode :=
  if tx.Cuts t then
    { cut := some { window := tx.window, threshold := tx.threshold }, first := tx.nextPn,
      lost := tx.declared t, unnamed := tx.declared t }
  else { e with lost := e.lost ++ tx.declared t, unnamed := e.unnamed ++ tx.declared t }

/-- The losses that take an episode past `maxSuspects` leave as many of it unnamed. -/
def Episode.Meets (e : Episode) (tx : Sending) (t : ℚ) : Prop :=
  e.pending = true → ¬ tx.Cuts t → maxSuspects < e.lost.length + (tx.declared t).length →
    maxSuspects < e.unnamed.length + (tx.declared t).length

/-- The sender's two variables against the observer's notes. -/
structure Agrees (tx : Sending) (e : Episode) : Prop where
  undo : tx.undo = if e.pending then e.cut else none
  suspects : tx.suspects = if e.pending then e.unnamed else []
  waiting : e.pending = true → e.unnamed ≠ []
  unnamed : e.unnamed.Sublist e.lost

/-- What clocks say: packets in flight were sent by `clock`, and those sent before the last cut
no later than the recovery began. -/
structure Timed (clock : ℚ) (tx : Sending) (e : Episode) : Prop where
  sent : ∀ pn f, tx.inFlight.get pn = some f → f.time ≤ clock ∧
    (pn < e.first → (f.time : WithBot ℚ) ≤ tx.recoveryStart)
  began : tx.recoveryStart ≤ (clock : WithBot ℚ)
  first : e.first ≤ tx.nextPn

/-- A change that leaves the episode alone: what is new in flight is sent by `clock`. -/
structure Sending.Calm (clock : ℚ) (tx tx' : Sending) : Prop where
  suspects : tx'.suspects = tx.suspects
  undo : tx'.undo = tx.undo
  recoveryStart : tx'.recoveryStart = tx.recoveryStart
  nextPn : tx.nextPn ≤ tx'.nextPn
  inFlight : ∀ pn f, tx'.inFlight.get pn = some f →
    tx.inFlight.get pn = some f ∨ (tx.nextPn ≤ pn ∧ f.time ≤ clock)

namespace Sending

variable {clock : ℚ}

theorem Calm.refl (tx : Sending) : Calm clock tx tx :=
  ⟨rfl, rfl, rfl, Nat.le_refl _, fun _ _ h => Or.inl h⟩

theorem Calm.trans {tx tx' tx'' : Sending} (h : Calm clock tx tx') (h' : Calm clock tx' tx'') :
    Calm clock tx tx'' where
  suspects := h'.suspects.trans h.suspects
  undo := h'.undo.trans h.undo
  recoveryStart := h'.recoveryStart.trans h.recoveryStart
  nextPn := h.nextPn.trans h'.nextPn
  inFlight pn f hf := by
    rcases h'.inFlight pn f hf with hf | ⟨hpn, ht⟩
    · exact h.inFlight pn f hf
    · exact Or.inr ⟨h.nextPn.trans hpn, ht⟩

/-- What acks and changes of rate do is calm, unless they touch the episode. -/
theorem Shrinks.calm {tx tx' : Sending} (h : Shrinks tx tx') (h₁ : tx'.suspects = tx.suspects)
    (h₂ : tx'.undo = tx.undo) (h₃ : tx'.recoveryStart = tx.recoveryStart) : Calm clock tx tx' :=
  ⟨h₁, h₂, h₃, h.nextPn.ge, fun pn f hf => Or.inl (h.inFlight pn f hf)⟩

theorem ackPacket_episode (largest : Int) (a : Sending × Option Flight) (pn : Nat) :
    (ackPacket largest a pn).1.suspects = a.1.suspects ∧ (ackPacket largest a pn).1.undo = a.1.undo ∧
      (ackPacket largest a pn).1.recoveryStart = a.1.recoveryStart := by
  unfold ackPacket
  dsimp only
  split <;> exact ⟨rfl, rfl, rfl⟩

theorem ackNamed_calm (tx : Sending) (largest : Int) (ranges : List (Nat × Nat)) :
    Calm clock tx (UdpStream.ackNamed tx largest ranges).1 := by
  have h : ∀ (pns : List Nat) (a : Sending × Option Flight),
      (pns.foldl (ackPacket largest) a).1.suspects = a.1.suspects ∧
      (pns.foldl (ackPacket largest) a).1.undo = a.1.undo ∧
      (pns.foldl (ackPacket largest) a).1.recoveryStart = a.1.recoveryStart := by
    intro pns
    induction pns with
    | nil => exact fun a => ⟨rfl, rfl, rfl⟩
    | cons pn pns ih =>
      intro a
      obtain ⟨h₁, h₂, h₃⟩ := ih (ackPacket largest a pn)
      obtain ⟨g₁, g₂, g₃⟩ := ackPacket_episode largest a pn
      exact ⟨h₁.trans g₁, h₂.trans g₂, h₃.trans g₃⟩
  obtain ⟨h₁, h₂, h₃⟩ := h (tx.visits none ranges) (tx, none)
  rw [← ackNamed_visits] at h₁ h₂ h₃
  exact (ackNamed_shrinks tx largest ranges).calm h₁ h₂ h₃

theorem sample_calm (tx : Sending) (latest delay : ℚ) : Calm clock tx (tx.sample latest delay) := by
  have h := sample_shrinks tx latest delay
  unfold sample at h ⊢
  split at h <;> rename_i hmin
  · rw [if_pos hmin]
    exact h.calm rfl rfl rfl
  · rw [if_neg hmin]
    exact h.calm rfl rfl rfl

theorem advanceOldest_calm (tx : Sending) : Calm clock tx tx.advanceOldest :=
  ⟨rfl, rfl, rfl, Nat.le_refl _, fun _ _ h => Or.inl h⟩

/-- Past the suspects, what `onAck` learns leaves the episode alone. -/
theorem learns_calm (tx : Sending) (now : ℚ) (delay : Nat) (largest : Int) (newest : Option Flight)
    (ranges : List (Nat × Nat)) :
    Calm clock (tx.clearSuspects ranges) (tx.learns now delay largest newest ranges) := by
  have h₁ : Calm clock (tx.clearSuspects ranges) { tx.clearSuspects ranges with
      largestAcked := max (tx.clearSuspects ranges).largestAcked largest }.advanceOldest :=
    ⟨rfl, rfl, rfl, Nat.le_refl _, fun _ _ h => Or.inl h⟩
  unfold learns
  cases newest with
  | none => exact h₁
  | some f => exact h₁.trans (sample_calm _ _ _)

theorem oldestChunk_calm (tx : Sending) : Calm clock tx tx.oldestChunk.1 := by
  unfold oldestChunk
  dsimp only
  split <;> exact ⟨rfl, rfl, rfl, Nat.le_refl _, fun _ _ h => Or.inl h⟩

theorem fit_calm (tx : Sending) (o : Nat) (c : Bytes) : Calm clock tx (tx.fit o c) := by
  unfold fit
  dsimp only
  split
  · exact Calm.refl _
  · exact ⟨rfl, rfl, rfl, Nat.le_refl _, fun _ _ h => Or.inl h⟩

theorem nextChunk_calm (tx : Sending) (probe : Bool) : Calm clock tx (tx.nextChunk probe).1 := by
  have hlost : Calm clock tx (tx.nextLost tx.lost.keys).1 := by
    generalize tx.lost.keys = offsets
    induction offsets generalizing tx with
    | nil => exact Calm.refl _
    | cons o rest ih =>
      have hdrop : Calm clock tx { tx with lost := tx.lost.delete o } :=
        ⟨rfl, rfl, rfl, Nat.le_refl _, fun _ _ h => Or.inl h⟩
      unfold nextLost
      dsimp only
      split
      · exact hdrop.trans (fit_calm _ _ _)
      · exact hdrop.trans (ih _)
  rcases nextChunk_cases tx probe with ⟨o, -, he⟩ | ⟨-, ⟨-, he⟩ | ⟨-, -, o, -, he⟩ | ⟨-, he⟩⟩
  · rw [he]
    exact hlost
  · rw [he]
    exact hlost.trans ⟨rfl, rfl, rfl, Nat.le_refl _, fun _ _ h => Or.inl h⟩
  · rw [he]
    exact (hlost.trans (oldestChunk_calm _)).trans (fit_calm _ _ _)
  · rw [he]
    split
    · exact hlost.trans (oldestChunk_calm _)
    · exact hlost

/-- What the walk of `detectLoss` leaves as it was. -/
theorem scanPackets_rest (t delay persistence : ℚ) (pns : List Nat) (a : LossScan) :
    let b := pns.foldl (scanPacket t delay persistence) a
    b.tx.suspects = a.tx.suspects ∧ b.tx.undo = a.tx.undo ∧
      b.tx.recoveryStart = a.tx.recoveryStart ∧ b.tx.window = a.tx.window ∧
      b.tx.threshold = a.tx.threshold ∧ b.tx.nextPn = a.tx.nextPn := by
  induction pns generalizing a with
  | nil => exact ⟨rfl, rfl, rfl, rfl, rfl, rfl⟩
  | cons pn pns ih =>
    have hone : (scanPacket t delay persistence a pn).tx.suspects = a.tx.suspects ∧
        (scanPacket t delay persistence a pn).tx.undo = a.tx.undo ∧
        (scanPacket t delay persistence a pn).tx.recoveryStart = a.tx.recoveryStart ∧
        (scanPacket t delay persistence a pn).tx.window = a.tx.window ∧
        (scanPacket t delay persistence a pn).tx.threshold = a.tx.threshold ∧
        (scanPacket t delay persistence a pn).tx.nextPn = a.tx.nextPn := by
      unfold scanPacket
      split
      · exact ⟨rfl, rfl, rfl, rfl, rfl, rfl⟩
      · dsimp only
        split_ifs <;> exact ⟨rfl, rfl, rfl, rfl, rfl, rfl⟩
    obtain ⟨h₁, h₂, h₃, h₄, h₅, h₆⟩ := ih (scanPacket t delay persistence a pn)
    obtain ⟨g₁, g₂, g₃, g₄, g₅, g₆⟩ := hone
    exact ⟨h₁.trans g₁, h₂.trans g₂, h₃.trans g₃, h₄.trans g₄, h₅.trans g₅, h₆.trans g₆⟩

theorem lossScan_rest (tx : Sending) (t : ℚ) :
    (tx.lossScan t).tx.suspects = tx.suspects ∧ (tx.lossScan t).tx.undo = tx.undo ∧
      (tx.lossScan t).tx.recoveryStart = tx.recoveryStart ∧ (tx.lossScan t).tx.window = tx.window ∧
      (tx.lossScan t).tx.threshold = tx.threshold ∧ (tx.lossScan t).tx.nextPn = tx.nextPn :=
  scanPackets_rest t tx.lossDelay (persistentPtos * tx.pto) _
    { tx := advanceOldest { tx with lossTime := ⊤ } }

/-- The latest send time the walk notes is that of a packet it declares lost. -/
theorem scanPackets_latest (t delay persistence : ℚ) (pns : List Nat) (hn : pns.Nodup) (a : LossScan)
    {r : WithBot ℚ} (hr : r < (pns.foldl (scanPacket t delay persistence) a).lostSentAt) :
    r < a.lostSentAt ∨ ∃ pn f, pn ∈ (pns.foldl (scanPacket t delay persistence) a).lost ∧
      a.tx.inFlight.get pn = some f ∧ r < (f.time : WithBot ℚ) := by
  induction pns generalizing a with
  | nil => exact Or.inl hr
  | cons k pns ih =>
    obtain ⟨hk, hn⟩ := List.nodup_cons.mp hn
    obtain ⟨-, -, hstep⟩ := scanPacket_effect t delay persistence a k
    obtain ⟨new, hlost, -, -, -⟩ := scanPackets_effect t delay persistence pns hn
      (scanPacket t delay persistence a k)
    rw [List.foldl_cons] at hr ⊢
    rcases ih hn _ hr with hlt | ⟨pn, f, hpn, hf, ht⟩
    · rcases hstep with ⟨-, -, hsame, -⟩ | ⟨f, hf, -, hadd, hmax, -⟩
      · rw [hsame] at hlt
        exact Or.inl hlt
      · rw [hmax, lt_max_iff] at hlt
        rcases hlt with hlt | hlt
        · exact Or.inl hlt
        · refine Or.inr ⟨k, f, ?_, hf, hlt⟩
          rw [hlost, hadd]
          simp
    · refine Or.inr ⟨pn, f, hpn, ?_, ht⟩
      rcases hstep with ⟨-, -, -, he⟩ | ⟨_, -, -, -, -, he⟩
      · rwa [he] at hf
      · rw [he] at hf
        exact get_delete_some hf

/-- A cut needs a packet lost that was sent after the recovery under way began. -/
theorem cuts_lost {tx : Sending} {t : ℚ} (h : tx.Cuts t) :
    ∃ pn ∈ tx.declared t, ∃ f, tx.inFlight.get pn = some f ∧ tx.recoveryStart < (f.time : WithBot ℚ) := by
  have h : tx.recoveryStart < (tx.lossScan t).lostSentAt := h
  rcases scanPackets_latest t tx.lossDelay (persistentPtos * tx.pto) _ List.nodup_range'
    { tx := advanceOldest { tx with lossTime := ⊤ } } h with hlt | ⟨pn, f, hpn, hf, ht⟩
  · exact absurd hlt not_lt_bot
  · exact ⟨pn, hpn, f, hf, ht⟩

/-- What `detectLoss` does to the episode, in the words of its search. -/
theorem detectLoss_episode (tx : Sending) (t : ℚ) :
    (tx.detectLoss t).recoveryStart = (if tx.Cuts t then (t : WithBot ℚ) else tx.recoveryStart) ∧
    (tx.detectLoss t).undo =
      (if tx.Cuts t then
        (if (tx.declared t).length > maxSuspects then none
          else some { window := tx.window, threshold := tx.threshold })
      else if tx.undo.isSome ∧ tx.suspects.length + (tx.declared t).length > maxSuspects then none
        else tx.undo) ∧
    (tx.detectLoss t).suspects =
      (if tx.Cuts t then (if (tx.declared t).length > maxSuspects then [] else tx.declared t)
      else if tx.undo.isSome then
        (if tx.suspects.length + (tx.declared t).length > maxSuspects then []
          else tx.suspects ++ tx.declared t)
        else tx.suspects) := by
  obtain ⟨h₁, h₂, h₃, h₄, h₅, -⟩ := lossScan_rest tx t
  have hcuts : ((tx.lossScan t).lostSentAt > (tx.lossScan t).tx.recoveryStart) ↔ tx.Cuts t := by
    rw [h₃]
    rfl
  rw [detectLoss_eq]
  show (cutWindow t (tx.lossScan t)).recoveryStart = _ ∧ (cutWindow t (tx.lossScan t)).undo = _ ∧
    (cutWindow t (tx.lossScan t)).suspects = _
  unfold cutWindow declared
  by_cases hc : tx.Cuts t
  · simp only [if_pos (hcuts.mpr hc), if_pos hc, h₄, h₅, Option.isSome_some, if_true,
      List.length_nil, Nat.zero_add, List.nil_append]
    split_ifs <;> exact ⟨rfl, rfl, rfl⟩
  · simp only [if_neg (fun h => hc (hcuts.mp h)), if_neg hc]
    cases hu : tx.undo with
    | none =>
      rw [show (tx.lossScan t).tx.undo = none from h₂.trans hu]
      simp [h₁, h₂, h₃, hu]
    | some u =>
      rw [show (tx.lossScan t).tx.undo = some u from h₂.trans hu]
      simp only [Option.isSome_some, if_true, true_and, h₁]
      split_ifs <;> exact ⟨h₃, rfl, rfl⟩

end Sending

theorem Episode.named_pending (e : Episode) (ranges : List (Nat × Nat)) : (e.named ranges).pending =
    (e.pending && !(e.unnamed.filter (fun pn => !names ranges pn)).isEmpty) := by
  unfold Episode.pending Episode.named
  by_cases hb : e.lost.length ≤ maxSuspects
  · simp only [Episode.pending, hb, decide_true]
    generalize e.cut.isSome = a
    generalize e.undone = c
    generalize (e.unnamed.filter (fun pn => !names ranges pn)).isEmpty = d
    revert a c d
    decide
  · simp [hb]

theorem Sending.clearSuspects_none {tx : Sending} (ranges : List (Nat × Nat)) (hu : tx.undo = none) :
    tx.clearSuspects ranges = { tx with
      suspects := tx.suspects.filter (fun pn => !names ranges pn) } := by
  simp only [clearSuspects, hu]

theorem Sending.clearSuspects_some {tx : Sending} (ranges : List (Nat × Nat)) {u : Undo}
    (hu : tx.undo = some u) : tx.clearSuspects ranges =
      if (tx.suspects.filter (fun pn => !names ranges pn)).isEmpty then { tx with
        suspects := tx.suspects.filter (fun pn => !names ranges pn),
        window := max tx.window u.window, threshold := u.threshold, undo := none }
      else { tx with suspects := tx.suspects.filter (fun pn => !names ranges pn) } := by
  simp only [clearSuspects, hu]

namespace Agrees

variable {tx : Sending} {e : Episode}

theorem calm {clock : ℚ} (h : Agrees tx e) {tx' : Sending} (hc : tx.Calm clock tx') : Agrees tx' e :=
  ⟨hc.undo.trans h.undo, hc.suspects.trans h.suspects, h.waiting, h.unnamed⟩

/-- The pending cut is the one the sender could undo. -/
theorem pending_iff (h : Agrees tx e) : e.pending = true ↔ tx.undo.isSome := by
  rw [h.undo]
  cases hp : e.pending with
  | false => simp
  | true =>
    have hcut : e.cut.isSome = true := by
      simp only [Episode.pending, Bool.and_eq_true] at hp
      exact hp.1.1
    simp [hcut]

/-- Suspects are kept while the cut can be undone, at most `maxSuspects` of them. -/
theorem few (h : Agrees tx e) : tx.suspects.length ≤ maxSuspects := by
  rw [h.suspects]
  split
  · rename_i hp
    simp only [Episode.pending, Bool.and_eq_true, decide_eq_true_eq] at hp
    exact h.unnamed.length_le.trans hp.1.2
  · exact Nat.zero_le _

theorem moved (h : Agrees tx e) (now rttMs : ℚ) : Agrees (tx.rerouted now rttMs) e.moved := by
  have hpending : e.moved.pending = false := rfl
  have hundo : (tx.rerouted now rttMs).undo = none ∧ (tx.rerouted now rttMs).suspects = [] := by
    unfold Sending.rerouted Sending.sample
    dsimp only
    split <;> exact ⟨rfl, rfl⟩
  refine ⟨?_, ?_, fun hp => absurd (hpending.symm.trans hp) Bool.false_ne_true, h.unnamed⟩
  · rw [hpending]
    exact hundo.1
  · rw [hpending]
    exact hundo.2

/-- An ack undoes the cut exactly when it leaves nothing of a pending episode unnamed. -/
theorem named (h : Agrees tx e) (ranges : List (Nat × Nat)) :
    Agrees (tx.clearSuspects ranges) (e.named ranges) ∧
    ∀ u, tx.undo = some u → e.cut = some u ∧
      ((tx.clearSuspects ranges).undo = none ↔ ∀ pn ∈ e.unnamed, names ranges pn = true) ∧
      ((tx.clearSuspects ranges).undo = none → u.window ≤ (tx.clearSuspects ranges).window ∧
        (tx.clearSuspects ranges).threshold = u.threshold) := by
  have hnone : (e.unnamed.filter (fun pn => !names ranges pn)).isEmpty = true ↔
      ∀ pn ∈ e.unnamed, names ranges pn = true := by
    rw [List.isEmpty_iff, List.filter_eq_nil_iff]
    exact forall₂_congr fun pn _ => by simp
  have hsub : (e.named ranges).unnamed.Sublist (e.named ranges).lost :=
    List.filter_sublist.trans h.unnamed
  have hpending := e.named_pending ranges
  cases hp : e.pending with
  | false =>
    have hundo : tx.undo = none := by rw [h.undo, hp]; rfl
    have hsus : tx.suspects = [] := by rw [h.suspects, hp]; rfl
    rw [hp, Bool.false_and] at hpending
    rw [Sending.clearSuspects_none ranges hundo]
    refine ⟨⟨?_, ?_, fun hq => absurd (hpending.symm.trans hq) Bool.false_ne_true, hsub⟩, ?_⟩
    · rw [hpending]
      exact hundo
    · rw [hpending, hsus]
      rfl
    · intro u hu
      rw [hundo] at hu
      cases hu
  | true =>
    have hundo : tx.undo = e.cut := by rw [h.undo, hp]; rfl
    have hsus : tx.suspects = e.unnamed := by rw [h.suspects, hp]; rfl
    obtain ⟨u, hu⟩ := Option.isSome_iff_exists.mp (h.pending_iff.mp hp)
    have hcut : e.cut = some u := hundo.symm.trans hu
    rw [hp, Bool.true_and] at hpending
    rw [Sending.clearSuspects_some ranges hu, hsus]
    by_cases hall : (e.unnamed.filter (fun pn => !names ranges pn)).isEmpty = true
    · rw [hall] at hpending
      rw [if_pos hall]
      refine ⟨⟨?_, ?_, fun hq => absurd (hpending.symm.trans hq) Bool.false_ne_true, hsub⟩, ?_⟩
      · rw [hpending]
        rfl
      · rw [hpending]
        exact List.isEmpty_iff.mp hall
      · intro v hv
        rw [hu] at hv
        obtain rfl := Option.some.inj hv
        exact ⟨hcut, ⟨fun _ => hnone.mp hall, fun _ => rfl⟩, fun _ => ⟨le_max_right _ _, rfl⟩⟩
    · rw [Bool.eq_false_iff.mpr hall] at hpending
      rw [if_neg hall]
      refine ⟨⟨?_, ?_, fun _ hnil => hall (List.isEmpty_iff.mpr hnil), hsub⟩, ?_⟩
      · rw [hpending]
        exact hundo
      · rw [hpending]
        rfl
      · intro v hv
        have hkept : tx.undo ≠ none := fun hno => by
          rw [hu] at hno
          cases hno
        rw [hu] at hv
        obtain rfl := Option.some.inj hv
        exact ⟨hcut, ⟨fun hno => absurd hno hkept, fun hno => absurd (hnone.mpr hno) hall⟩,
          fun hno => absurd hno hkept⟩

/-- A search for losses, when what takes the episode past `maxSuspects` leaves as many unnamed. -/
theorem search (h : Agrees tx e) (t : ℚ) (hm : e.Meets tx t) :
    Agrees (tx.detectLoss t) (e.search tx t) := by
  obtain ⟨-, hundo, hsus⟩ := Sending.detectLoss_episode tx t
  by_cases hc : tx.Cuts t
  · have he : e.search tx t = {
        cut := some { window := tx.window, threshold := tx.threshold }
        first := tx.nextPn
        lost := tx.declared t
        unnamed := tx.declared t } := if_pos hc
    have hpending : (e.search tx t).pending = decide ((tx.declared t).length ≤ maxSuspects) := by
      rw [he]
      simp [Episode.pending]
    rw [if_pos hc] at hundo hsus
    refine ⟨?_, ?_, fun _ => ?_, ?_⟩
    · rw [hundo, hpending, he]
      simp only [decide_eq_true_eq]
      split_ifs <;> first | rfl | omega
    · rw [hsus, hpending, he]
      simp only [decide_eq_true_eq]
      split_ifs <;> first | rfl | omega
    · rw [he]
      obtain ⟨pn, hpn, -⟩ := Sending.cuts_lost hc
      exact List.ne_nil_of_mem hpn
    · rw [he]
  · have he : e.search tx t = { e with
        lost := e.lost ++ tx.declared t, unnamed := e.unnamed ++ tx.declared t } := if_neg hc
    have hsub : (e.search tx t).unnamed.Sublist (e.search tx t).lost := by
      rw [he]
      exact h.unnamed.append (List.Sublist.refl _)
    rw [if_neg hc] at hundo hsus
    cases hp : e.pending with
    | false =>
      have hno : tx.undo = none := by rw [h.undo, hp]; rfl
      have hnil : tx.suspects = [] := by rw [h.suspects, hp]; rfl
      have hpending : (e.search tx t).pending = false := by
        rw [he]
        simp only [Episode.pending, List.length_append, Bool.and_eq_false_iff, decide_eq_false_iff_not]
          at hp ⊢
        rcases hp with (hp | hp) | hp
        · exact Or.inl (Or.inl hp)
        · exact Or.inl (Or.inr (by omega))
        · exact Or.inr hp
      refine ⟨?_, ?_, fun hq => absurd (hpending.symm.trans hq) Bool.false_ne_true, hsub⟩
      · rw [hundo, hpending, hno]
        rfl
      · rw [hsus, hpending, hno, hnil]
        rfl
    | true =>
      have hsome : tx.undo.isSome = true := h.pending_iff.mp hp
      have hcut : tx.undo = e.cut := by rw [h.undo, hp]; rfl
      have hsame : tx.suspects = e.unnamed := by rw [h.suspects, hp]; rfl
      have hparts := hp
      simp only [Episode.pending, Bool.and_eq_true, decide_eq_true_eq, Bool.not_eq_true'] at hparts
      obtain ⟨⟨hcutsome, hfew⟩, hnot⟩ := hparts
      have hle := h.unnamed.length_le
      have hover := hm hp hc
      have hpending : (e.search tx t).pending =
          decide (e.lost.length + (tx.declared t).length ≤ maxSuspects) := by
        rw [he]
        simp only [Episode.pending, List.length_append, hcutsome, hnot, Bool.true_and, Bool.not_false,
          Bool.and_true]
      refine ⟨?_, ?_, fun _ => ?_, hsub⟩
      · rw [hundo, hpending, hsame, he, hcut]
        simp only [decide_eq_true_eq, hcutsome, true_and]
        split_ifs <;> first | rfl | omega
      · rw [hsus, hpending, hsame, he, if_pos hsome]
        simp only [decide_eq_true_eq]
        split_ifs <;> first | rfl | omega
      · rw [he]
        exact fun hnil => h.waiting hp (List.append_eq_nil_iff.mp hnil).1

end Agrees

namespace Timed

variable {clock : ℚ} {tx : Sending} {e : Episode}

theorem calm (h : Timed clock tx e) {now : ℚ} (hnow : clock ≤ now) {tx' : Sending}
    (hc : tx.Calm now tx') : Timed now tx' e where
  sent pn f hf := by
    rw [hc.recoveryStart]
    rcases hc.inFlight pn f hf with hf | ⟨hpn, ht⟩
    · obtain ⟨h₁, h₂⟩ := h.sent pn f hf
      exact ⟨h₁.trans hnow, h₂⟩
    · have hfirst := h.first
      exact ⟨ht, fun hlt => by omega⟩
  began := by
    rw [hc.recoveryStart]
    exact h.began.trans (WithBot.coe_le_coe.mpr hnow)
  first := h.first.trans hc.nextPn

theorem later (h : Timed clock tx e) {now : ℚ} (hnow : clock ≤ now) : Timed now tx e :=
  h.calm hnow (Sending.Calm.refl tx)

theorem named (h : Timed clock tx e) (ranges : List (Nat × Nat)) :
    Timed clock (tx.clearSuspects ranges) (e.named ranges) := by
  have hs := Sending.clearSuspects_shrinks tx ranges
  have hr : (tx.clearSuspects ranges).recoveryStart = tx.recoveryStart := by
    unfold Sending.clearSuspects
    dsimp only
    split
    · split <;> rfl
    · rfl
  refine ⟨fun pn f hf => ?_, ?_, ?_⟩
  · rw [hr]
    exact h.sent pn f (hs.inFlight pn f hf)
  · rw [hr]
    exact h.began
  · rw [hs.nextPn]
    exact h.first

theorem moved (h : Timed clock tx e) {now : ℚ} (hnow : clock ≤ now) (rttMs : ℚ) :
    Timed now (tx.rerouted now rttMs) e.moved := by
  have hs := Sending.rerouted_shrinks tx now rttMs
  have hr : (tx.rerouted now rttMs).recoveryStart = (now : WithBot ℚ) := by
    unfold Sending.rerouted Sending.sample
    dsimp only
    split <;> rfl
  refine ⟨fun pn f hf => ?_, ?_, ?_⟩
  · have ht := (h.sent pn f (hs.inFlight pn f hf)).1.trans hnow
    rw [hr]
    exact ⟨ht, fun _ => WithBot.coe_le_coe.mpr ht⟩
  · rw [hr]
  · rw [hs.nextPn]
    exact h.first

theorem search {t : ℚ} (h : Timed t tx e) : Timed t (tx.detectLoss t) (e.search tx t) := by
  obtain ⟨hr, -, -⟩ := Sending.detectLoss_episode tx t
  have hn : (tx.detectLoss t).nextPn = tx.nextPn := by
    obtain ⟨-, -, -, -, -, hscan⟩ := Sending.lossScan_rest tx t
    rw [Sending.detectLoss_eq, ← hscan]
    exact (Sending.cutWindow_shrinks t (tx.lossScan t)).nextPn
  have hget : ∀ pn f, (tx.detectLoss t).inFlight.get pn = some f → tx.inFlight.get pn = some f := by
    intro pn f hf
    rw [Sending.detectLoss_inFlight] at hf
    split at hf
    · cases hf
    · exact hf
  by_cases hc : tx.Cuts t
  · have hfirst : (e.search tx t).first = tx.nextPn := by
      unfold Episode.search
      rw [if_pos hc]
    rw [if_pos hc] at hr
    refine ⟨fun pn f hf => ?_, by rw [hr], by rw [hfirst, hn]⟩
    have ht := (h.sent pn f (hget pn f hf)).1
    rw [hr]
    exact ⟨ht, fun _ => WithBot.coe_le_coe.mpr ht⟩
  · have hfirst : (e.search tx t).first = e.first := by
      unfold Episode.search
      rw [if_neg hc]
    rw [if_neg hc] at hr
    refine ⟨fun pn f hf => ?_, by rw [hr]; exact h.began, by rw [hfirst, hn]; exact h.first⟩
    rw [hr, hfirst]
    exact h.sent pn f (hget pn f hf)

/-- A cut after a cut needs a packet lost that was sent after the first. -/
theorem cut_lost (h : Timed clock tx e) {t : ℚ} (hc : tx.Cuts t) : ∃ pn ∈ tx.declared t, e.first ≤ pn := by
  obtain ⟨pn, hpn, f, hf, ht⟩ := Sending.cuts_lost hc
  refine ⟨pn, hpn, ?_⟩
  by_contra hlt
  exact absurd ht (not_lt_of_ge ((h.sent pn f hf).2 (by omega)))

end Timed

namespace UdpStream

variable {s : UdpStream}

theorem sendChunk_calm (s : UdpStream) (now : ℚ) (o : Nat) (c : Bytes) :
    Sending.Calm now s.tx (s.sendChunk now o c).tx := by
  refine ⟨rfl, rfl, rfl, Nat.le_succ _, fun pn f hf => ?_⟩
  have hf : (s.tx.inFlight.set s.tx.nextPn _).get pn = some f := hf
  rw [OrdMap.get_set] at hf
  split at hf
  · rename_i hpn
    refine Or.inr ⟨hpn.ge, ?_⟩
    rw [← Option.some.inj hf]
  · exact Or.inl hf

theorem flushLoop_calm (now : ℚ) (n probes : Nat) (s : UdpStream) :
    Sending.Calm now s.tx (flushLoop now n probes s).tx := by
  induction n generalizing probes s with
  | zero => exact Sending.Calm.refl _
  | succ n ih =>
    have hnext : Sending.Calm now s.tx (s.tx.nextChunk (decide (probes > 0))).1 :=
      Sending.nextChunk_calm s.tx _
    unfold flushLoop
    split
    · exact ⟨rfl, rfl, rfl, Nat.le_refl _, fun _ _ h => Or.inl h⟩
    · split
      · rename_i tx he
        rw [he] at hnext
        exact hnext.trans ⟨rfl, rfl, rfl, Nat.le_refl _, fun _ _ h => Or.inl h⟩
      · rename_i tx o he
        rw [he] at hnext
        exact (hnext.trans (sendChunk_calm { s with tx := tx } now o _)).trans (ih _ _)

theorem flush_calm (now : ℚ) (probes : Nat) (s : UdpStream) :
    Sending.Calm now s.tx (s.flush now probes).tx := by
  unfold flush
  split
  · exact Sending.Calm.refl _
  · rw [tx_of_desk (arm_desk _)]
    exact flushLoop_calm now _ probes s

theorem sendProbe_calm (now : ℚ) (s : UdpStream) : Sending.Calm now s.tx (s.sendProbe now).tx := by
  unfold sendProbe
  dsimp only
  split
  · exact Sending.Calm.refl _
  · split
    · exact ⟨rfl, rfl, rfl, Nat.le_refl _, fun _ _ h => Or.inl h⟩
    · exact ⟨rfl, rfl, rfl, Nat.le_succ _, fun _ _ h => Or.inl h⟩

theorem startProbe_calm (now : ℚ) (s : UdpStream) : Sending.Calm now s.tx (s.startProbe now).tx :=
  have h := sendProbe_calm now { s with tx := { s.tx with probes := [] } }
  ⟨h.suspects, h.undo, h.recoveryStart, h.nextPn, h.inFlight⟩

theorem tookAcks_calm (now : ℚ) (s : UdpStream) (first : Nat × Nat) (ranges : List (Nat × Nat)) :
    Sending.Calm now s.tx (s.tookAcks first ranges).tx := by
  have h : Sending.Calm now s.tx (ackNamed s.tx (s.largestOf first) ranges).1 :=
    Sending.ackNamed_calm s.tx _ _
  unfold tookAcks probeAcked
  dsimp only
  split_ifs
  · exact h.trans ⟨rfl, rfl, rfl, Nat.le_refl _, fun _ _ h => Or.inl h⟩
  · exact h
  · exact h

theorem afterLoss_calm (now : ℚ) (s : UdpStream) : Sending.Calm now s.tx (s.afterLoss now).tx := by
  unfold afterLoss
  split
  · have h := startProbe_calm now { s with tx := { s.tx with reprobe := false } }
    exact ⟨h.suspects, h.undo, h.recoveryStart, h.nextPn, h.inFlight⟩
  · exact Sending.Calm.refl _

theorem afterAck_calm (now : ℚ) (s : UdpStream) : Sending.Calm now s.tx (s.afterAck now).tx := by
  have hleft : Sending.Calm now s.tx s.tx.buffered.1 := Sending.oldestChunk_calm s.tx
  unfold afterAck
  split
  · dsimp only
    split
    · rw [tx_of_desk (endStream_desk _ _ _)]
      exact hleft
    · exact hleft.trans (flush_calm now 0 { s with tx := s.tx.buffered.1 })
  · exact flush_calm now 0 s

theorem start_calm (now : ℚ) (s : UdpStream) : Sending.Calm now s.tx (s.start now).tx := by
  unfold start
  split
  · exact Sending.Calm.refl _
  · dsimp only
    have hflush : ∀ s₁ : UdpStream, s₁.tx = s.tx →
        Sending.Calm now s.tx { (s₁.flush now 0).tx with reprobe := true } := fun s₁ h₁ => by
      have h := flush_calm now 0 s₁
      rw [h₁] at h
      exact ⟨h.suspects, h.undo, h.recoveryStart, h.nextPn, h.inFlight⟩
    refine hflush _ ?_
    split
    · exact tx_of_desk (sendAck_desk _ _)
    · rfl

theorem send_calm (now : ℚ) (s : UdpStream) (bytes : Bytes) :
    Sending.Calm now s.tx (s.send now bytes).1.tx := by
  have hleft : Sending.Calm now s.tx s.tx.buffered.1 := Sending.oldestChunk_calm s.tx
  unfold send
  split
  · exact Sending.Calm.refl _
  · dsimp only
    split
    · exact hleft
    · split
      · exact hleft
      · refine Sending.Calm.trans ?_ (flush_calm now 0 _)
        exact ⟨hleft.suspects, hleft.undo, hleft.recoveryStart, hleft.nextPn, hleft.inFlight⟩

theorem close_calm (now : ℚ) (s : UdpStream) (graceful : Bool) :
    Sending.Calm now s.tx (s.close now graceful).tx := by
  have hleft : Sending.Calm now s.tx s.tx.buffered.1 := Sending.oldestChunk_calm s.tx
  unfold close
  split
  · exact Sending.Calm.refl _
  · split
    · dsimp only
      split
      · exact hleft
      · rw [tx_of_desk (endStream_desk _ _ _)]
        exact hleft
    · rw [tx_of_desk (endStream_desk _ _ _)]
      exact Sending.Calm.refl _

/-- Whether the recovery that is due at `t` looks for losses. -/
def Looks (s : UdpStream) (t : ℚ) : Prop :=
  s.tx.inFlight.size ≠ 0 ∧ ¬ (t : WithTop ℚ) < s.tx.recoveryDue ∧ s.tx.lossTime < ⊤

instance (s : UdpStream) (t : ℚ) : Decidable (s.Looks t) := inferInstanceAs (Decidable (_ ∧ _ ∧ _))

/-- Whether a wake at `t` comes to look for losses. -/
def Searches (s : UdpStream) (now t : ℚ) : Prop :=
  let s₁ := if (t : WithTop ℚ) ≥ s.liveAt then s.tick now t else s
  s.gone = false ∧ ¬ (t : WithTop ℚ) ≥ s.lingerAt ∧ s₁.gone = false ∧
    (t : WithTop ℚ) ≥ s₁.recoveryAt ∧ s₁.Looks t

instance (s : UdpStream) (now t : ℚ) : Decidable (s.Searches now t) :=
  inferInstanceAs (Decidable (_ ∧ _ ∧ _ ∧ _ ∧ _))

/-- A recovery that looks for losses is a search and a flush; another leaves the episode. -/
theorem onRecovery_calm (now t : ℚ) (s : UdpStream) :
    (s.Looks t → Sending.Calm now (s.tx.detectLoss t) (s.onRecovery now t).tx) ∧
    (¬ s.Looks t → Sending.Calm now s.tx (s.onRecovery now t).tx) := by
  unfold onRecovery
  dsimp only
  split
  · rename_i hnone
    exact ⟨fun h => absurd hnone h.1, fun _ => Sending.Calm.refl _⟩
  · rename_i hsome
    split
    · rename_i hearly
      rw [tx_of_desk (arm_desk _)]
      exact ⟨fun h => absurd hearly h.2.1, fun _ => Sending.Calm.refl _⟩
    · rename_i hdue
      split
      · rename_i hloss
        exact ⟨fun _ => flush_calm now 0 { s with recoveryAt := ⊤, tx := s.tx.detectLoss t },
          fun h => absurd ⟨hsome, hdue, hloss⟩ h⟩
      · rename_i hloss
        refine ⟨fun h => absurd h.2.2 hloss, fun _ => ?_⟩
        split
        · rw [tx_of_desk (endStream_desk _ _ _)]
          exact Sending.Calm.refl _
        · have htimeout : Sending.Calm now s.tx s.tx.timeout := by
            unfold Sending.timeout
            dsimp only
            split <;> exact ⟨rfl, rfl, rfl, Nat.le_refl _, fun _ _ h => Or.inl h⟩
          exact htimeout.trans (flush_calm now 2 { s with recoveryAt := ⊤, tx := s.tx.timeout })

/-- What a wake does past its tick. -/
theorem wakeRest_calm (now t : ℚ) (s : UdpStream) :
    let s₁ := if ¬ s.gone ∧ (t : WithTop ℚ) ≥ s.recoveryAt then s.onRecovery now t else s
    let s₂ := if ¬ s₁.gone ∧ (t : WithTop ℚ) ≥ s₁.probeAt then s₁.sendProbe now else s₁
    (s.gone = false ∧ (t : WithTop ℚ) ≥ s.recoveryAt ∧ s.Looks t →
      Sending.Calm now (s.tx.detectLoss t) s₂.tx) ∧
    (¬ (s.gone = false ∧ (t : WithTop ℚ) ≥ s.recoveryAt ∧ s.Looks t) →
      Sending.Calm now s.tx s₂.tx) := by
  obtain ⟨hlooks, hnot⟩ := onRecovery_calm now t s
  have hprobe : ∀ {tx₀ : Sending} (s₁ : UdpStream), Sending.Calm now tx₀ s₁.tx →
      Sending.Calm now tx₀ (if ¬ s₁.gone ∧ (t : WithTop ℚ) ≥ s₁.probeAt
        then s₁.sendProbe now else s₁).tx := by
    intro tx₀ s₁ h
    split
    · exact h.trans (sendProbe_calm now _)
    · exact h
  intro s₁ s₂
  by_cases hdue : ¬ s.gone ∧ (t : WithTop ℚ) ≥ s.recoveryAt
  · have hs₁ : s₁ = s.onRecovery now t := if_pos hdue
    refine ⟨fun h => hprobe s₁ ?_, fun h => hprobe s₁ ?_⟩
    · rw [hs₁]
      exact hlooks h.2.2
    · rw [hs₁]
      exact hnot fun hl => h ⟨by simpa using hdue.1, hdue.2, hl⟩
  · have hs₁ : s₁ = s := if_neg hdue
    refine ⟨fun h => absurd ⟨by rw [h.1]; decide, h.2.1⟩ hdue, fun _ => hprobe s₁ ?_⟩
    rw [hs₁]
    exact Sending.Calm.refl _

theorem onWake_calm (now t : ℚ) (s : UdpStream) :
    (s.Searches now t → Sending.Calm now (s.tx.detectLoss t) (s.onWake now t).tx) ∧
    (¬ s.Searches now t → Sending.Calm now s.tx (s.onWake now t).tx) := by
  by_cases hg : s.gone = true
  · have hstay : s.onWake now t = s := by
      unfold onWake
      rw [if_pos hg]
    rw [hstay]
    exact ⟨fun h => absurd (hg.symm.trans h.1) (by decide), fun _ => Sending.Calm.refl _⟩
  · by_cases hlinger : (t : WithTop ℚ) ≥ s.lingerAt
    · have hend : (s.onWake now t).tx = s.tx := by
        unfold onWake
        rw [if_neg hg, if_pos hlinger]
        exact tx_of_desk (endStream_desk _ _ _)
      rw [hend]
      exact ⟨fun h => absurd hlinger h.2.1, fun _ => Sending.Calm.refl _⟩
    · have htick : (if (t : WithTop ℚ) ≥ s.liveAt then s.tick now t else s).tx = s.tx := by
        split
        · exact tx_of_desk (tick_desk _ _ _)
        · rfl
      have hrest := wakeRest_calm now t (if (t : WithTop ℚ) ≥ s.liveAt then s.tick now t else s)
      unfold onWake
      rw [if_neg hg, if_neg hlinger, ← htick]
      exact ⟨fun h => hrest.1 h.2.2,
        fun h => hrest.2 fun hr => h ⟨by simpa using hg, hlinger, hr⟩⟩

/-- What a stream is given: a call, or a packet. -/
inductive Input where
  | call (c : Call)
  | packet (p : Bytes)

def on (s : UdpStream) (now : ℚ) : Input → UdpStream
  | .call c => s.call now c
  | .packet p => s.receive now p

/-- What an input names as acked. -/
def named? (s : UdpStream) : Input → Option (List (Nat × Nat))
  | .call _ => none
  | .packet p =>
    if s.gone then none
    else match decode p with
      | some (.ack _ _ (first :: rest)) => some (first :: rest)
      | _ => none

/-- The search for losses that an input leads to: the sender it looks at, and the time. -/
def search? (s : UdpStream) (now : ℚ) : Input → Option (Sending × ℚ)
  | .call (.wake t) => if s.Searches now t then some (s.tx, t) else none
  | .call _ => none
  | .packet p =>
    if s.gone then none
    else match decode p with
      | some (.ack credit delay (first :: rest)) =>
        some ((s.heard now credit).beforeLoss now delay first (first :: rest), now)
      | _ => none

/-- Whether an input moves the path. -/
def repaths (s : UdpStream) : Input → Bool
  | .call (.repath _) => !s.gone
  | _ => false

end UdpStream

namespace Episode

/-- The notes once the acks of an input are read. -/
def acked (e : Episode) (s : UdpStream) (i : UdpStream.Input) : Episode :=
  match s.named? i with
  | some ranges => e.named ranges
  | none => e

/-- The notes after an input. -/
def after (e : Episode) (s : UdpStream) (now : ℚ) (i : UdpStream.Input) : Episode :=
  match s.search? now i with
  | some (tx, t) => (e.acked s i).search tx t
  | none => if s.repaths i then e.moved else e

end Episode

/-- A run of a stream under a clock that never goes back, with the observer's notes; a strict
one when each search for losses meets the condition on what takes an episode past
`maxSuspects`. -/
inductive Watched (strict : Prop) : ℚ → UdpStream → Episode → Prop where
  | new (clock : ℚ) : Watched strict clock {} {}
  | step {clock : ℚ} {s : UdpStream} {e : Episode} (h : Watched strict clock s e) (now : ℚ)
      (hnow : clock ≤ now) (i : UdpStream.Input) (hwake : ∀ t, i = .call (.wake t) → clock ≤ t ∧ t ≤ now)
      (hm : strict → ∀ tx t, s.search? now i = some (tx, t) → (e.acked s i).Meets tx t) :
      Watched strict now (s.on now i) (e.after s now i)

namespace UdpStream

/-- What an input does to the episode: nothing, a move of the path, a search for losses, or acks
and then a search. -/
theorem on_cases (s : UdpStream) (e : Episode) (now : ℚ) (i : UdpStream.Input) :
    (s.search? now i = none ∧ e.after s now i = e ∧ Sending.Calm now s.tx (s.on now i).tx) ∨
    (∃ rttMs, s.search? now i = none ∧ e.after s now i = e.moved ∧
      Sending.Calm now (s.tx.rerouted now rttMs) (s.on now i).tx) ∨
    (∃ t, i = .call (.wake t) ∧ s.search? now i = some (s.tx, t) ∧ e.acked s i = e ∧
      Sending.Calm now (s.tx.detectLoss t) (s.on now i).tx) ∨
    (∃ ranges tx₀ tx, s.search? now i = some (tx, now) ∧ e.acked s i = e.named ranges ∧
      Sending.Calm now s.tx tx₀ ∧ Sending.Calm now (tx₀.clearSuspects ranges) tx ∧
      Sending.Calm now (tx.detectLoss now) (s.on now i).tx) := by
  have hdesk : ∀ {s' : UdpStream}, s'.desk = s.desk → Sending.Calm now s.tx s'.tx := by
    intro s' h
    rw [tx_of_desk h]
    exact Sending.Calm.refl _
  cases i with
  | call c =>
    cases c with
    | start => exact Or.inl ⟨rfl, rfl, start_calm now s⟩
    | send bytes => exact Or.inl ⟨rfl, rfl, send_calm now s bytes⟩
    | reader => exact Or.inl ⟨rfl, rfl, hdesk (deliver_desk { s with read := true } now)⟩
    | readDone => exact Or.inl ⟨rfl, rfl, hdesk (deliver_desk { s with reading := false } now)⟩
    | turn => exact Or.inl ⟨rfl, rfl, hdesk (turn_desk s now)⟩
    | close graceful => exact Or.inl ⟨rfl, rfl, close_calm now s graceful⟩
    | cut => exact Or.inl ⟨rfl, rfl, hdesk (endStream_desk s now .cut)⟩
    | wake t =>
      obtain ⟨hyes, hno⟩ := onWake_calm now t s
      by_cases hs : s.Searches now t
      · exact Or.inr (Or.inr (Or.inl ⟨t, rfl, if_pos hs, rfl, hyes hs⟩))
      · have hnone : s.search? now (.call (.wake t)) = none := if_neg hs
        refine Or.inl ⟨hnone, ?_, hno hs⟩
        unfold Episode.after
        rw [hnone]
        rfl
    | repath rttMs =>
      by_cases hg : s.gone = true
      · refine Or.inl ⟨rfl, ?_, ?_⟩
        · simp [Episode.after, search?, repaths, hg]
        · rw [show s.on now (.call (.repath rttMs)) = s from if_pos hg]
          exact Sending.Calm.refl _
      · refine Or.inr (Or.inl ⟨rttMs, rfl, ?_, ?_⟩)
        · simp [Episode.after, search?, repaths, hg]
        · rw [show s.on now (.call (.repath rttMs)) = _ from if_neg hg]
          have hflush := flush_calm now 0 (sendAck { s with tx := s.tx.rerouted now rttMs } now)
          rw [tx_of_desk (sendAck_desk _ _)] at hflush
          exact hflush.trans (startProbe_calm now _)
  | packet p =>
    by_cases hg : s.gone = true
    · have hnone : s.search? now (.packet p) = none := if_pos hg
      refine Or.inl ⟨hnone, ?_, ?_⟩
      · unfold Episode.after
        rw [hnone]
        rfl
      · rw [show s.on now (.packet p) = s from if_pos hg]
        exact Sending.Calm.refl _
    · have hsearch : s.search? now (.packet p) = match decode p with
          | some (.ack credit delay (first :: rest)) =>
            some ((s.heard now credit).beforeLoss now delay first (first :: rest), now)
          | _ => none := if_neg hg
      have hnamed : s.named? (.packet p) = match decode p with
          | some (.ack _ _ (first :: rest)) => some (first :: rest)
          | _ => none := if_neg hg
      have hheard : ({ s with lastHeard := now } : UdpStream).desk = s.desk := rfl
      unfold Episode.after Episode.acked
      rw [hsearch, hnamed]
      show _ ∨ _ ∨ _ ∨ _
      simp only [on]
      unfold receive
      rw [if_neg hg]
      dsimp only
      generalize decode p = packet
      cases packet with
      | none => exact Or.inl ⟨rfl, rfl, Sending.Calm.refl _⟩
      | some packet =>
        cases packet with
        | data pn o floor bs => exact Or.inl ⟨rfl, rfl, hdesk ((onChunk_desk _ _ _ _ _ _).trans hheard)⟩
        | probe pn => exact Or.inl ⟨rfl, rfl, hdesk ((received_desk _ _ _).trans hheard)⟩
        | close => exact Or.inl ⟨rfl, rfl, hdesk ((fail_desk _ _).trans hheard)⟩
        | ack credit delay ranges =>
          have hcredit : Sending.Calm now s.tx (s.heard now credit).tx :=
            ⟨rfl, rfl, rfl, Nat.le_refl _, fun _ _ h => Or.inl h⟩
          cases ranges with
          | nil => exact Or.inl ⟨rfl, rfl, hcredit.trans (afterAck_calm now (s.heard now credit))⟩
          | cons first rest =>
            have htook := tookAcks_calm now (s.heard now credit) first (first :: rest)
            refine Or.inr (Or.inr (Or.inr ⟨first :: rest, _, _, rfl, rfl, hcredit.trans htook,
              Sending.learns_calm _ now delay _ _ _, ?_⟩))
            show Sending.Calm now _
              (((s.heard now credit).onRanges now delay first (first :: rest)).afterAck now).tx
            rw [onRanges_eq]
            exact (afterLoss_calm now { (s.heard now credit).tookAcks first (first :: rest) with
              tx := ((s.heard now credit).beforeLoss now delay first (first :: rest)).detectLoss now }).trans
                (afterAck_calm now _)

theorem after_search {s : UdpStream} {e : Episode} {now t : ℚ} {i : UdpStream.Input} {tx : Sending}
    (h : s.search? now i = some (tx, t)) : e.after s now i = (e.acked s i).search tx t := by
  unfold Episode.after
  rw [h]

end UdpStream

open UdpStream (on_cases after_search)

/-- What an input that searches for losses finds on the clock, and what every input leaves. -/
theorem Timed.step {clock : ℚ} {s : UdpStream} {e : Episode} (h : Timed clock s.tx e) {now : ℚ}
    (hnow : clock ≤ now) (i : UdpStream.Input) (hwake : ∀ t, i = .call (.wake t) → clock ≤ t ∧ t ≤ now) :
    (∀ tx t, s.search? now i = some (tx, t) → Timed t tx (e.acked s i)) ∧
    Timed now (s.on now i).tx (e.after s now i) := by
  rcases on_cases s e now i with ⟨hnone, he, hc⟩ | ⟨rttMs, hnone, he, hc⟩ | ⟨t, rfl, hs, hacked, hc⟩ |
    ⟨ranges, tx₀, tx, hs, hacked, h₀, h₁, hc⟩
  · rw [he, hnone]
    exact ⟨fun _ _ hf => (by cases hf), h.calm hnow hc⟩
  · rw [he, hnone]
    exact ⟨fun _ _ hf => (by cases hf), (h.moved hnow rttMs).calm (le_refl now) hc⟩
  · obtain ⟨hlow, hhigh⟩ := hwake t rfl
    have hfound : Timed t s.tx (e.acked s (.call (.wake t))) := by
      rw [hacked]
      exact h.later hlow
    rw [after_search hs, hs]
    refine ⟨?_, hfound.search.calm hhigh hc⟩
    rintro _ _ ⟨⟩
    exact hfound
  · have hfound : Timed now tx (e.acked s i) := by
      rw [hacked]
      exact (((h.calm hnow h₀).named ranges).calm (le_refl now) h₁)
    rw [after_search hs, hs]
    refine ⟨?_, hfound.search.calm (le_refl now) hc⟩
    rintro _ _ ⟨⟩
    exact hfound

theorem Agrees.step {s : UdpStream} {e : Episode} (h : Agrees s.tx e) (now : ℚ) (i : UdpStream.Input)
    (hm : ∀ tx t, s.search? now i = some (tx, t) → (e.acked s i).Meets tx t) :
    Agrees (s.on now i).tx (e.after s now i) := by
  rcases on_cases s e now i with ⟨-, he, hc⟩ | ⟨rttMs, -, he, hc⟩ | ⟨t, rfl, hs, hacked, hc⟩ |
    ⟨ranges, tx₀, tx, hs, hacked, h₀, h₁, hc⟩
  · rw [he]
    exact h.calm hc
  · rw [he]
    exact (h.moved now rttMs).calm hc
  · have hmeets := hm s.tx t hs
    rw [after_search hs]
    rw [hacked] at hmeets ⊢
    exact (h.search t hmeets).calm hc
  · have hmeets := hm tx now hs
    rw [after_search hs]
    rw [hacked] at hmeets ⊢
    exact ((((h.calm h₀).named ranges).1.calm h₁).search now hmeets).calm hc

namespace Watched

variable {strict : Prop} {clock : ℚ} {s : UdpStream} {e : Episode}

theorem timed (h : Watched strict clock s e) : Timed clock s.tx e := by
  induction h with
  | new clock => exact ⟨nofun, bot_le, Nat.le_refl _⟩
  | step _ now hnow i hwake _ ih => exact (ih.step hnow i hwake).2

theorem agrees (h : Watched True clock s e) : Agrees s.tx e := by
  induction h with
  | new clock => exact ⟨rfl, rfl, nofun, List.Sublist.refl _⟩
  | step _ now _ i _ hm ih => exact ih.step now i (hm trivial)

end Watched

/-- The sender once the ranges of an ack are read, before it looks at its suspects. -/
def UdpStream.ranged (s : UdpStream) (now : ℚ) (credit : Nat) (first : Nat × Nat)
    (ranges : List (Nat × Nat)) : Sending := ((s.heard now credit).tookAcks first ranges).tx

/-- In every run whose searches meet the condition: what a sender suspects and could undo is what
the notes say of the episode, whether the next ack undoes its cut, and that the next cut needs a
packet lost that was sent after it. -/
theorem undo_exact {clock : ℚ} {s : UdpStream} {e : Episode} (h : Watched True clock s e) :
    (s.tx.suspects ≠ [] ↔ s.tx.undo.isSome = true) ∧ s.tx.suspects.length ≤ maxSuspects ∧
    (∀ pn ∈ s.tx.suspects, pn ∈ e.lost ∧ pn ∈ e.unnamed) ∧
    s.tx.undo = (if e.pending then e.cut else none) ∧
    (maxSuspects < e.lost.length ∨ e.cut = none → s.tx.undo = none) ∧
    (∀ now credit first rest u, let tx := s.ranged now credit first rest
      tx.undo = some u → e.cut = some u ∧
      ((tx.clearSuspects rest).undo = none ↔ ∀ pn ∈ e.unnamed, names rest pn = true) ∧
      ((tx.clearSuspects rest).undo = none →
        u.window ≤ (tx.clearSuspects rest).window ∧ (tx.clearSuspects rest).threshold = u.threshold)) ∧
    (∀ now i tx t, clock ≤ now → (∀ t, i = .call (.wake t) → clock ≤ t ∧ t ≤ now) →
      s.search? now i = some (tx, t) → tx.Cuts t → ∃ pn ∈ tx.declared t, e.first ≤ pn) := by
  have ha := h.agrees
  have hsus := ha.suspects
  have hundo := ha.undo
  have hpending := ha.pending_iff
  refine ⟨?_, ha.few, fun pn hpn => ?_, hundo, fun hover => ?_, ?_,
    fun now i tx t hnow hwake hs hc => ?_⟩
  · rw [← hpending, hsus]
    cases hp : e.pending with
    | false => simp
    | true => simpa using ha.waiting hp
  · rw [hsus] at hpn
    cases hp : e.pending with
    | false =>
      rw [hp] at hpn
      cases hpn
    | true =>
      rw [hp] at hpn
      exact ⟨ha.unnamed.subset hpn, hpn⟩
  · have hnot : e.pending = false := by
      unfold Episode.pending
      rcases hover with hover | hover
      · simp [hover]
      · simp [hover]
    rw [hundo, hnot]
    rfl
  · intro now credit first rest u tx hu
    have hcredit : Sending.Calm now s.tx (s.heard now credit).tx :=
      ⟨rfl, rfl, rfl, Nat.le_refl _, fun _ _ h => Or.inl h⟩
    have hread := hcredit.trans (UdpStream.tookAcks_calm now (s.heard now credit) first rest)
    exact (ha.calm hread).named rest |>.2 u hu
  · have hfound := (h.timed.step hnow i hwake).1 tx t hs
    obtain ⟨pn, hpn, hfirst⟩ := hfound.cut_lost hc
    have hsame : (e.acked s i).first = e.first := by
      unfold Episode.acked
      split <;> rfl
    exact ⟨pn, hpn, hsame ▸ hfirst⟩

/-- A stream that has sent `n` packets at time 0. -/
def sent : Nat → UdpStream
  | 0 => ({} : UdpStream).call 0 .start
  | n + 1 => (sent n).call 0 (.send [1])

theorem Watched.sent {strict : Prop} (n : Nat) : Watched strict 0 (sent n) {} := by
  induction n with
  | zero =>
    exact (Watched.new 0).step 0 (le_refl 0) (.call .start) (fun _ h => by cases h)
      (fun _ _ _ h => by cases h)
  | succ n ih =>
    exact ih.step 0 (le_refl 0) (.call (.send [1])) (fun _ h => by cases h) (fun _ _ _ h => by cases h)

/-- An ack that names one range. -/
def ackOf (high low : Nat) : UdpStream.Input := .packet (encode (.ack initialCredit 0 [(high, low)]))

theorem undo_exact_cut :
    let s := (sent 40).on 1 (ackOf 20 20)
    Watched True 1 s (Episode.after {} (sent 40) 1 (ackOf 20 20)) ∧
    s.tx.suspects.length = 18 ∧ (s.tx.suspects ≠ [] ↔ s.tx.undo.isSome = true) := by
  have hrun : Watched True 1 ((sent 40).on 1 (ackOf 20 20))
      (Episode.after {} (sent 40) 1 (ackOf 20 20)) :=
    (Watched.sent 40).step 1 (by decide) (ackOf 20 20) (fun _ h => by cases h)
      (fun _ tx t _ hp => absurd hp (by decide +kernel))
  exact ⟨hrun, by decide +kernel, (undo_exact hrun).1⟩

theorem Watched.free {clock : ℚ} {s : UdpStream} {e : Episode} (h : Watched False clock s e) (now : ℚ)
    (hnow : clock ≤ now) (high low : Nat) :
    Watched False now (s.on now (ackOf high low)) (e.after s now (ackOf high low)) :=
  h.step now hnow (ackOf high low) (fun _ h => by cases h) False.elim

/-- Past an ack that names 20, then one that names 0 to 16, then one that names 39. -/
def late₁ : UdpStream := (sent 40).on 1 (ackOf 20 20)

def late₂ : UdpStream := late₁.on 2 (ackOf 16 0)

def late₃ : UdpStream := late₂.on 2 (ackOf 39 39)

/-- What is noted on the way. -/
def lateNotes : Episode :=
  ((Episode.after {} (sent 40) 1 (ackOf 20 20)).after late₁ 2 (ackOf 16 0)).after late₂ 2 (ackOf 39 39)

/-- An episode that has declared 36 packets lost, 17 of them named in between, is undone all the
same. -/
theorem undone_past_bound :
    Watched False 2 late₃ lateNotes ∧ lateNotes.lost.length = 36 ∧
    maxSuspects < lateNotes.lost.length ∧
    lateNotes.cut = some { window := 12000, threshold := ⊤ } ∧
    late₃.tx.threshold ≠ ⊤ ∧ late₃.tx.window < 12000 ∧ late₃.tx.undo = lateNotes.cut ∧
    (late₃.on 3 (ackOf 39 17)).tx.threshold = ⊤ ∧ (late₃.on 3 (ackOf 39 17)).tx.window = 12000 ∧
    (late₃.on 3 (ackOf 39 17)).tx.undo = none := by
  have hrun : Watched False 2 late₃ lateNotes :=
    (((Watched.sent 40).free 1 (by norm_num) 20 20).free 2 (by norm_num) 16 0).free 2 (le_refl 2) 39 39
  exact ⟨hrun, by decide +kernel⟩

end SeedTransport.Stream
