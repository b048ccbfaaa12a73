import SeedTransport.Link.Rest

set_option autoImplicit false

namespace SeedTransport

/-! The record layer keeps to the laws: sealing, the flush of the queue, the goodbye, and
the records taken in. -/

open Async Async.Prog

theorem SessionLaw.keyed {sp : Spec} {own : Bytes} {log : List Mark} {p s r : Bytes}
    {t : Option Bytes} (h : SessionLaw sp own log p t s r) :
    (∃ label ∈ recordLabels, Keyed log label s) ∧ ∃ label ∈ recordLabels, Keyed log label r := by
  have hi : LABEL_I2R ∈ recordLabels := by simp [recordLabels]
  have hr : LABEL_R2I ∈ recordLabels := by simp [recordLabels]
  rcases h with ⟨-, d, hd, -, -, rfl, rfl⟩ | ⟨-, a, ha, -, -, rfl, rfl⟩
  · exact ⟨⟨_, hi, _, hd.i2r⟩, ⟨_, hr, _, hd.r2i⟩⟩
  · exact ⟨⟨_, hr, _, ha.r2i⟩, ⟨_, hi, _, ha.i2r⟩⟩

theorem KeyChain.keyed {log : List Mark} {key k : Bytes} {e : Nat} (h : KeyChain log key e k)
    (hk : ∃ label ∈ recordLabels, Keyed log label key) : ∃ label ∈ recordLabels, Keyed log label k := by
  cases h with
  | zero => exact hk
  | succ _ hash => exact ⟨LABEL_REKEY, by simp [recordLabels], _, hash⟩

namespace Link

/-- What a step that seals and the outside together leave as it was. -/
structure Drift (s t : Link) : Prop where
  spec : t.spec = s.spec
  node : t.node = s.node
  authed : t.authed = s.authed
  recvCtr : t.recvCtr = s.recvCtr
  closed : s.closed = true → t.closed = true
  stalled : s.stalled = true → t.stalled = true
  parted : s.closed = true → s.parting = false → t.parting = false
  records : records t.work + s.outboundQueuedSlices = records s.work + t.outboundQueuedSlices
  bounded : t.outboundQueuedSlices = s.outboundQueuedSlices ∨
    s.sendEpoch < REJECT_AFTER_EPOCHS ∧ t.outboundQueuedSlices ≤ maxOutboundQueueSlices
  epoch : s.sendEpoch ≤ t.sendEpoch

namespace Drift

variable {s t u : Link}

theorem of_moves (h : Moves s t) : Drift s t where
  spec := h.spec
  node := h.node
  authed := h.authed
  recvCtr := h.recvCtr
  closed := h.closed
  stalled := h.stalled
  parted := h.parted
  records := h.records
  bounded := h.bounded.imp id And.right
  epoch := h.sendEpoch.ge

theorem of_after {c : Call} {a : Option Bytes} (h : After c a s t) : Drift s t :=
  let d := of_moves h.moves
  ⟨d.spec, d.node, d.authed, d.recvCtr, d.closed, d.stalled, d.parted, d.records, d.bounded,
    d.epoch⟩

theorem trans (h : Drift s t) (h' : Drift t u) : Drift s u where
  spec := h'.spec.trans h.spec
  node := h'.node.trans h.node
  authed := h'.authed.trans h.authed
  recvCtr := h'.recvCtr.trans h.recvCtr
  closed hc := h'.closed (h.closed hc)
  stalled hc := h'.stalled (h.stalled hc)
  parted hc hp := h'.parted (h.closed hc) (h.parted hc hp)
  records := by
    have := h.records
    have := h'.records
    omega
  bounded := by
    rcases h'.bounded with h2 | h2
    · rw [h2]
      exact h.bounded
    · exact .inr ⟨h.epoch.trans_lt h2.1, h2.2⟩
  epoch := h.epoch.trans h'.epoch

end Drift

/-- There is an epoch left to move to: one was counted for this record, or few are used. -/
def Room (l : Link) : Prop :=
  (records l.work + 1 ≤ l.outboundQueuedSlices ∧ l.sendEpoch + records l.work + 1 ≤ MAX_EPOCH) ∨
    l.sendEpoch < MAX_QUEUE_BYTES

theorem Room.drift {s t : Link} (h : Room s) (hs : Safe s) (hd : Drift s t)
    (he : t.sendEpoch = s.sendEpoch) : Room t := by
  rcases h with ⟨h1, h2⟩ | h
  · left
    have hrec := hd.records
    have hcap : REJECT_AFTER_EPOCHS + maxOutboundQueueSlices ≤ MAX_EPOCH := by decide
    refine ⟨by omega, ?_⟩
    rcases hd.bounded with hb | hb
    · omega
    · omega
  · exact .inr (he ▸ h)

theorem Room.budget {l : Link} (h : Room l) (hs : Safe l) : l.sendEpoch + 1 + records l.work ≤ MAX_EPOCH := by
  have h1 := hs.taken
  have h2 := hs.slices
  have hcap : MAX_QUEUE_BYTES + maxOutboundQueueSlices ≤ MAX_EPOCH := by decide
  rcases h with ⟨-, h⟩ | h
  · omega
  · omega

/-! ### Sealing one record -/

theorem HasSession.paid {l : Link} (hs : Safe l) (h : l.HasSession) (c : Call) : Paid c l := by
  obtain ⟨t, s, r, hmem, -⟩ := h
  exact fun _ hd => (hs.lawful.session hmem).checked.2 hd

theorem HasSession.wireLaw {l : Link} (hs : Safe l) (h : l.HasSession) (m : Bytes) :
    WireLaw l.spec l.node.ownPk l.marks m := by
  obtain ⟨t, s, r, hmem, -⟩ := h
  exact fun hd => .inr ((hs.lawful.session hmem).checked.1 hd)

/-- A new place for the sending side, no earlier than the old one. -/
theorem Core.sendTo {l : Link} (h : Core l) {e c : Nat} {key : Option Bytes}
    (ha : l.authed = true) (hle : l.sendPos.place ≤ toLex (e, c))
    (hb : e + records l.work ≤ MAX_EPOCH)
    (hsess : HasSession { l with sendEpoch := e, sendCtr := c, sendKey := key }) :
    Core { l with sendEpoch := e, sendCtr := c, sendKey := key } := by
  refine { h with
    queue := ⟨h.queue.bytes, h.queue.nonempty, h.queue.length⟩
    budget := hb
    early := fun hf => absurd (ha.symm.trans hf) (by simp)
    late := fun _ => hsess
    sealedPast := fun r hr => (h.sealedPast r hr).trans hle
    sealsPast := ?_ }
  intro k n p ct hmem
  rcases h.sealsPast k n p ct hmem with hk | ⟨e', c', he, hc, hn, hlt⟩
  · exact .inl hk
  · exact .inr ⟨e', c', he, hc, hn, hlt.trans_le hle⟩

theorem Safe.sendTo {l : Link} (h : Safe l) {e c : Nat} {key : Option Bytes}
    (ha : l.authed = true) (hle : l.sendPos.place ≤ toLex (e, c))
    (hb : e + records l.work ≤ MAX_EPOCH)
    (hsess : HasSession { l with sendEpoch := e, sendCtr := c, sendKey := key }) :
    Safe { l with sendEpoch := e, sendCtr := c, sendKey := key } :=
  ⟨h.toCore.sendTo ha hle hb hsess, h.recvHere, h.passed, h.nonempty⟩

/-- The answer to a seal at the link's own place: the counter moves past it. -/
theorem Safe.answerSeal {l : Link} (k p ct : Bytes) (h : Safe l) (ha : l.authed = true)
    (hasked : Mark.asked (.aeadSeal k (nonce l.sendEpoch l.sendCtr) p) ∈ l.marks)
    (he : l.sendEpoch < 2 ^ 32) (hc : l.sendCtr < 2 ^ 32) :
    Safe { l.mark (.done (.aeadSeal k (nonce l.sendEpoch l.sendCtr) p) (some ct)) with
      sendCtr := l.sendCtr + 1 } := by
  generalize hm : Mark.done (.aeadSeal k (nonce l.sendEpoch l.sendCtr) p) (some ct) = m
  have hlt : l.sendPos.place < toLex (l.sendEpoch, l.sendCtr + 1) := by
    simp [Pos.place, sendPos, Prod.Lex.lt_iff]
  have hsess : HasSession { l with sendCtr := l.sendCtr + 1 } := h.late ha
  have h1 := h.sendTo ha hlt.le h.budget hsess
  have hsub : l.marks ⊆ l.marks ++ [m] := by simp
  have hsealed : sealedRecs (l.marks ++ [m]) = sealedRecs l.marks := by
    simp [sealedRecs, List.filterMap_append, ← hm, sealedOf]
  have haccepted : acceptedRecs (l.marks ++ [m]) = acceptedRecs l.marks := by
    simp [acceptedRecs, List.filterMap_append, ← hm, acceptedOf]
  have hframes : framesOf (l.marks ++ [m]) = framesOf l.marks := by
    simp [framesOf, List.filterMap_append, ← hm, frameOf]
  have hlaw : Law l.spec l.node.ownPk l.marks m := hm ▸ hasked
  refine ⟨{ h1.toCore with
      lawful := h.lawful.concat hlaw
      root := fun r hr => (h.root r hr).longer hsub
      eph := fun p hp => (h.eph p hp).longer hsub
      kem := ?_
      queue := ⟨h.queue.bytes, h.queue.nonempty, h.queue.length⟩
      late := fun _ => hasSession_longer hsess
      sealedPast := ?_
      sealsPast := ?_ }, ?_, ?_, ?_⟩
  · intro p hp
    obtain ⟨seed, r, hr, h2⟩ := h.kem p hp
    exact ⟨seed, r, hr.longer hsub, h2⟩
  · intro r hr
    exact h1.sealedPast r (hsealed ▸ hr)
  · refine sealsPast_longer h.sealsPast hlt.le fun k' n' p' ct' heq => .inr ?_
    rw [heq] at hm
    cases hm
    exact ⟨l.sendEpoch, l.sendCtr, he, hc, rfl, hlt⟩
  · simp only [Link.mark, haccepted]
    exact h.recvHere
  · simp only [Link.mark, haccepted, hframes]
    exact h.passed
  · simp only [Link.mark, hframes]
    exact h.nonempty

/-- How far one record takes the sending side. -/
structure Stepped (s t : Link) : Prop where
  epoch : t.sendEpoch ≤ s.sendEpoch + 1
  ctr : t.sendCtr ≤ s.sendCtr + 1

theorem Stepped.refl (s : Link) : Stepped s s := ⟨by omega, by omega⟩

theorem Drift.refl (s : Link) : Drift s s := .of_moves (.refl s)

/-- The mark of a record that was sealed at `s`'s place. -/
theorem Safe.markSealed {s w : Link} {key frame ct p ks kr : Bytes} {t : Option Bytes}
    (hs : Safe s) (hw : Safe w) (hspec : w.spec = s.spec) (hsub : s.marks ⊆ w.marks)
    (hsess : Mark.session p t ks kr ∈ s.marks) (hkey : KeyChain s.marks ks s.sendEpoch key)
    (hans : Answers w.marks (.aeadSeal key (nonce s.sendEpoch s.sendCtr) frame) ct)
    (hrecs : sealedRecs w.marks = sealedRecs s.marks)
    (hplace : w.sendPos.place = advance s.spec.rekeyAfterFrames s.sendPos.place)
    (hnext : ∀ k, w.sendKey = some k → KeyChain w.marks ks w.sendEpoch k) :
    Safe (w.mark (.sealed ⟨s.sendEpoch, s.sendCtr, some key⟩ frame ct w.sendPos)) := by
  refine hw.mark ?_ ?_ ⟨rfl, rfl⟩ (fun _ _ _ _ he => nomatch he)
  · refine ⟨⟨p, t, ks, kr, hsub hsess, ⟨key, rfl, hkey.longer hsub⟩, ?_, hnext⟩,
      ⟨key, rfl, hans⟩, ?_⟩
    · rw [hspec]
      exact hplace
    · rw [hrecs, hspec]
      exact hs.sealedPast
  · rintro r hr
    cases hr
    rw [hspec]
    exact hplace.ge

theorem wp_sealHere {key frame : Bytes} {ends : List Ending} {Q : Bytes → Link → Prop}
    {E : Link → Prop} {s : Link} (hs : Safe s) (ha : s.authed = true) (hr : Room s)
    (hc : s.sendCtr < 2 ^ 32) (hkey : s.sendKey = some key)
    (hlast : s.marks.getLast? = some (.seals ⟨s.sendEpoch, s.sendCtr, some key⟩ frame ends))
    (hQ : ∀ ct t, Safe t → Drift s t → Stepped s t → t.sendCtr < t.spec.rekeyAfterFrames → Q ct t)
    (hE : ∀ t, Safe t → Drift s t → Stepped s t → E t) :
    (sealHere key frame).wp terms Q E s := by
  obtain ⟨th, ks, kr, hmem, hsend, hrecv⟩ := hs.late ha
  unfold sealHere
  rw [wp_bind, wp_get]
  have he32 : s.sendEpoch < 2 ^ 32 := by
    have := hs.budget
    have := MAX_EPOCH_lt
    omega
  have hlaw : Law s.spec s.node.ownPk s.marks
      (.asked (.aeadSeal key (nonce s.sendEpoch s.sendCtr) frame)) := by
    refine ⟨HasSession.paid hs (hs.late ha) _,
      .inr ⟨s.sendEpoch, s.sendCtr, he32, hc, rfl, ?_, ⟨ends, hlast⟩, ?_⟩⟩
    · exact (hsend key hkey).keyed (hs.lawful.session hmem).keyed.1
    · exact hs.sealsPast
  rw [wp_bind]
  refine wp_ask ⟨hs.mark hlaw (by simp [sealedOf]) ⟨rfl, rfl⟩ (fun _ _ _ _ he => by cases he),
      .inr ⟨rfl, he32, hc⟩⟩ (fun ct t ht => ?_) fun t ht => ?_
  · have hu : Safe { t with sendCtr := t.sendCtr + 1 } := by
      have h1 := ht.found hs hlaw rfl
      have h2 := h1.answerSeal key frame ct (ht.authed.trans ha)
        (by simp [ht.sendEpoch, ht.sendCtr]) (by simpa [ht.sendEpoch] using he32)
        (by simpa [ht.sendCtr] using hc)
      refine h2.of_view ?_
      simp [view, Link.mark, ht.marks, ht.sendEpoch, ht.sendCtr]
    have hdu : Drift s { t with sendCtr := t.sendCtr + 1 } :=
      let d := Drift.of_after ht
      ⟨d.spec, d.node, d.authed, d.recvCtr, d.closed, d.stalled, d.parted, d.records, d.bounded,
    d.epoch⟩
    have hkeys : ∀ k, t.sendKey = some k → k = key := fun k hk =>
      Option.some.inj ((ht.moves.sendKey.of_some hk).symm.trans hkey)
    rw [wp_bind, wp_modify, wp_bind, wp_get, wp_ite]
    refine ⟨fun hrekey => ?_, fun hrekey => ?_⟩
    · simp only [ratchet]
      rw [wp_bind, wp_bind, wp_need]
      refine ⟨fun k hk => ?_, fun _ => hE _ hu hdu ⟨by simp [ht.sendEpoch], by simp [ht.sendCtr]⟩⟩
      obtain rfl := hkeys k hk
      refine wp_calm hu rfl (by simp [Paid, Call.costly]) (fun next v hv hsv => ?_)
        fun v hv hsv => hE v hsv (hdu.trans (.of_after hv))
          ⟨by simp [hv.sendEpoch, ht.sendEpoch], by simp [hv.sendCtr, ht.sendCtr]⟩
      have hve : v.sendEpoch = s.sendEpoch := hv.sendEpoch.trans ht.sendEpoch
      have hvc : v.sendCtr = s.sendCtr + 1 := by simp [hv.sendCtr, ht.sendCtr]
      have hdv : Drift s v := hdu.trans (.of_after hv)
      have hsub : s.marks ⊆ v.marks := List.Subset.trans ht.subset hv.subset
      have hroom := (hr.drift hs hdv hve).budget hsv
      have hchain : KeyChain v.marks ks (v.sendEpoch + 1) next := by
        rw [hve]
        exact .succ ((hsend k hkey).longer hsub) hv.answers
      have hsv' : Safe { v with sendEpoch := v.sendEpoch + 1, sendCtr := 0, sendKey := some next } := by
        refine hsv.sendTo (hdv.authed.trans ha) ?_ hroom ?_
        · simp [Pos.place, sendPos, Prod.Lex.le_iff]
        · have hpeer : v.peerId = s.peerId := hv.peerId.trans ht.peerId
          have hre : v.recvEpoch = s.recvEpoch := hv.recvEpoch.trans ht.recvEpoch
          refine ⟨th, ks, kr, ?_, ?_, ?_⟩
          · rw [hpeer]
            exact hsub hmem
          · rintro k' ⟨⟩
            exact hchain
          · intro k' hk'
            simp only [hre]
            exact (hrecv k' (ht.moves.recvKey.of_some (hv.moves.recvKey.of_some hk'))).longer hsub
      rw [wp_bind, wp_modify, wp_bind, wp_modify, wp_pure]
      have hdv' : Drift s (Link.mark
          (.sealed ⟨s.sendEpoch, s.sendCtr, some k⟩ frame ct ⟨v.sendEpoch + 1, 0, some next⟩)
          { v with sendEpoch := v.sendEpoch + 1, sendCtr := 0, sendKey := some next }) :=
        ⟨hdv.spec, hdv.node, hdv.authed, hdv.recvCtr, hdv.closed, hdv.stalled, hdv.parted,
          hdv.records, hdv.bounded, Nat.le_succ_of_le hdv.epoch⟩
      refine hQ ct _ (hs.markSealed hsv' hdv.spec hsub hmem (hsend k hkey) ?_ ?_ ?_ ?_) hdv' ?_ ?_
      · exact (ht.answers).longer hv.subset
      · simp [sealedRecs, hv.marks, ht.marks, List.filterMap_append, sealedOf]
      · have h1 : s.spec.rekeyAfterFrames ≤ s.sendCtr + 1 := by
          simpa [ht.spec, ht.sendCtr] using hrekey
        simp [Pos.place, sendPos, advance, h1, hve]
      · rintro k' ⟨⟩
        exact hchain
      · exact ⟨by simp [Link.mark, hve], by simp [Link.mark]⟩
      · have := hs.loads.1
        simp only [Link.mark, hdv.spec]
        omega
    · rw [wp_bind, wp_modify, wp_pure]
      have hdu' : Drift s (Link.mark
          (.sealed ⟨s.sendEpoch, s.sendCtr, some key⟩ frame ct
            ⟨t.sendEpoch, t.sendCtr + 1, t.sendKey⟩)
          { t with sendCtr := t.sendCtr + 1 }) :=
        ⟨hdu.spec, hdu.node, hdu.authed, hdu.recvCtr, hdu.closed, hdu.stalled, hdu.parted,
          hdu.records, hdu.bounded, hdu.epoch⟩
      have h1 : ¬ s.spec.rekeyAfterFrames ≤ s.sendCtr + 1 := by
        simpa [ht.spec, ht.sendCtr] using hrekey
      refine hQ ct _ (hs.markSealed hu hdu.spec ht.subset hmem (hsend key hkey) ?_ ?_ ?_ ?_) hdu' ?_ ?_
      · exact ht.answers
      · simp [sealedRecs, ht.marks, List.filterMap_append, sealedOf]
      · simp [Pos.place, sendPos, advance, h1, ht.sendEpoch, ht.sendCtr]
      · intro k hk
        obtain rfl := hkeys k hk
        simp only [ht.sendEpoch]
        exact (hsend k hkey).longer ht.subset
      · exact ⟨by simp [Link.mark, ht.sendEpoch], by simp [Link.mark, ht.sendCtr]⟩
      · simpa [Link.mark] using hrekey
  · exact hE t (ht.safe hs hlaw rfl (fun _ _ _ _ he => by cases he)) (.of_after ht)
      ⟨by simp [ht.sendEpoch], by simp [ht.sendCtr]⟩

theorem wp_sealFrame {frame : Bytes} {Q : Bytes → Link → Prop} {E : Link → Prop} {s : Link}
    (hs : Safe s) (ha : s.authed = true) (hr : Room s) (hc : s.sendKey ≠ none → s.sendCtr < 2 ^ 32)
    (hQ : ∀ ct t, Safe t → Drift s t → Stepped s t → t.sendCtr < t.spec.rekeyAfterFrames → Q ct t)
    (hE : ∀ t, Safe t → Drift s t → Stepped s t → E t) :
    (sealFrame frame).wp terms Q E s := by
  unfold sealFrame
  rw [wp_bind, wp_get, wp_bind, wp_need]
  refine ⟨fun key hkey => ?_, fun _ => hE s hs (.refl s) (.refl s)⟩
  rw [wp_bind, wp_modify]
  have hs' : Safe (s.mark (.seals s.sendPos frame s.ends)) :=
    hs.mark trivial (by simp [sealedOf]) ⟨rfl, rfl⟩ (fun _ _ _ _ he => nomatch he)
  have hd' : ∀ t, Drift (s.mark (.seals s.sendPos frame s.ends)) t → Drift s t := fun t hd =>
    ⟨hd.spec, hd.node, hd.authed, hd.recvCtr, hd.closed, hd.stalled, hd.parted, hd.records,
      hd.bounded, hd.epoch⟩
  have hlast : (s.mark (.seals s.sendPos frame s.ends)).marks.getLast? =
      some (.seals ⟨s.sendEpoch, s.sendCtr, some key⟩ frame s.ends) := by
    simp [Link.mark, sendPos, hkey]
  exact wp_sealHere hs' ha hr (hc (by simp [hkey])) hkey hlast
    (fun ct t ht hd hst hlt => hQ ct t ht (hd' t hd) ⟨hst.epoch, hst.ctr⟩ hlt)
    fun t ht hd hst => hE t ht (hd' t hd) ⟨hst.epoch, hst.ctr⟩

/-! ### Records on the wire -/

theorem Stepped.of_moves {s t u : Link} (h : Stepped s t) (hm : Moves t u) : Stepped s u :=
  ⟨hm.sendEpoch ▸ h.epoch, hm.sendCtr ▸ h.ctr⟩

theorem wp_wireRecord {frame : Bytes} {Q : Unit → Link → Prop} {E : Link → Prop} {s : Link}
    (hs : Safe s) (ha : s.authed = true) (hr : Room s) (hc : s.sendKey ≠ none → s.sendCtr < 2 ^ 32)
    (hQ : ∀ t, Safe t → Drift s t → Stepped s t → CtrFits t → Q () t) :
    (wireRecord frame).wp terms Q E s := by
  have failed : ∀ t, Safe t → Drift s t → Stepped s t → Q () (t.abort false) := by
    intro t ht hd hst
    have hm := abort_moves false t
    exact hQ _ (ht.moves hm) (hd.trans (.of_moves hm)) (hst.of_moves hm)
      (.inr (.inl (abort_parted false t)))
  unfold wireRecord
  rw [wp_attempt, wp_bind]
  refine wp_sealFrame hs ha hr hc (fun ct t ht hd hst hlt => ?_) fun t ht hd hst => failed t ht hd hst
  have hsess := ht.late (hd.authed.trans ha)
  refine wp_wire ht (hsess.paid ht _) (hsess.wireLaw ht ct) (fun b u hu hsu => ?_) fun u hu hsu => ?_
  · refine hQ u hsu (hd.trans (.of_after hu)) ⟨hu.sendEpoch ▸ hst.epoch, hu.sendCtr ▸ hst.ctr⟩
      (.inl ?_)
    rw [hu.sendCtr, hu.spec]
    exact hlt
  · exact failed u hsu (hd.trans (.of_after hu)) ⟨hu.sendEpoch ▸ hst.epoch, hu.sendCtr ▸ hst.ctr⟩

/-- The flush of the queue: every frame of it moves the place by one record at most, and
there are too few of them to run out of places. -/
theorem wp_flush {frames : List Bytes} {Q : Unit → Link → Prop} {E : Link → Prop} {s : Link}
    (hs : Safe s) (ha : s.authed = true) (he : s.sendEpoch + frames.length ≤ MAX_QUEUE_BYTES)
    (hn : s.sendCtr + frames.length ≤ MAX_QUEUE_BYTES) (hf : CtrFits s)
    (hQ : ∀ t, Safe t → Drift s t → CtrFits t → Q () t) : (flush frames).wp terms Q E s := by
  induction frames generalizing s with
  | nil => exact hQ s hs (.refl s) hf
  | cons frame frames ih =>
    simp only [List.length_cons] at he hn
    have hcap : MAX_QUEUE_BYTES < 2 ^ 32 := by decide
    unfold flush
    rw [wp_bind]
    refine wp_wireRecord hs ha (.inr (by omega)) (fun _ => by omega) fun t ht hd hst hft => ?_
    have h1 := hst.epoch
    have h2 := hst.ctr
    exact ih ht (hd.authed.trans ha) (by omega) (by omega) hft
      fun u hu hdu hfu => hQ u hu (hd.trans hdu) hfu

/-! ### The steps that send -/

theorem wp_sendRecord {frame : Bytes} {s : Link} (hs : Safe s) (ha : s.authed = true)
    (hready : s.closed = true ∨ s.stalled = true ∨ Ready s) (hr : CtrFits s)
    (ht : records s.work + 1 ≤ s.outboundQueuedSlices)
    (hb : s.sendEpoch + records s.work + 1 ≤ MAX_EPOCH) :
    (sendRecord frame).wp terms (fun _ => Rest) Rest s := by
  have hcap := MAX_EPOCH_lt
  have finished : ∀ t, Safe t → Drift s t → CtrFits t → Rest { t with
      outboundQueuedSlices := t.outboundQueuedSlices - 1
      outboundQueuedBytes := t.outboundQueuedBytes - frame.length } := by
    intro t hst hd hc
    refine ⟨?_, ?_, hc⟩
    · have hrec := hd.records
      refine ⟨{ hst.toCore with
          queue := ⟨hst.queue.bytes, hst.queue.nonempty, hst.queue.length⟩
          taken := by simp only; omega
          slices := (Nat.sub_le _ _).trans hst.slices
          late := hst.late }, hst.recvHere, hst.passed, hst.nonempty⟩
    · rcases hready with h | h | h
      · exact .inl (hd.closed h)
      · exact .inr (.inl (hd.stalled h))
      · cases h with
        | record _ hctr =>
          refine .inr (.inr (.record (hd.authed.trans ha) ?_))
          simpa [hd.recvCtr, hd.spec] using hctr
        | msg2 h => simp [ha] at h
        | msg1 h => simp [ha] at h
        | msg3 h => simp [ha] at h
  unfold sendRecord
  rw [wp_ensuring, wp_bind, wp_get, wp_ite]
  refine ⟨fun _ => finished s hs (.refl s) hr, fun hopen => ?_⟩
  refine wp_wireRecord hs ha (.inl ⟨ht, hb⟩) (fun hk => ?_) fun t ht hd _ hc => finished t ht hd hc
  rcases hr with h | ⟨h1, h2⟩ | h
  · exact h.trans_le hs.loads.2
  · simp [h1, h2] at hopen
  · exact absurd h hk

theorem wp_farewell {s : Link} (hs : Safe s)
    (hready : s.closed = true ∨ s.stalled = true ∨ Ready s) (hr : CtrFits s) :
    farewell.wp terms (fun _ => Rest) Rest s := by
  have finished : ∀ t g, Safe t → (t.closed = true ∨ t.stalled = true ∨ Ready t) →
      Rest { t.teardown with effects := t.teardown.effects ++ [.channelClose g] } := by
    intro t g hst hrt
    have hm : Moves t { t.teardown with effects := t.teardown.effects ++ [.channelClose g] } :=
      (teardown_moves t).trans
        (.of_same rfl ⟨rfl, rfl⟩ ⟨rfl, rfl, rfl, rfl⟩ ⟨rfl, rfl, rfl⟩ rfl rfl ⟨rfl, rfl⟩)
    refine ⟨hst.moves hm, ?_, .inr (.inr rfl)⟩
    rcases hrt with h | h | h
    · exact .inl (hm.closed h)
    · exact .inr (.inl (hm.stalled h))
    · exact .inr (.inr (h.moves hm))
  have drifted : ∀ t, s.authed = true → Drift s t →
      t.closed = true ∨ t.stalled = true ∨ Ready t := by
    intro t ha hd
    rcases hready with h | h | h
    · exact .inl (hd.closed h)
    · exact .inr (.inl (hd.stalled h))
    · cases h with
      | record _ hctr =>
        refine .inr (.inr (.record (hd.authed.trans ha) ?_))
        simpa [hd.recvCtr, hd.spec] using hctr
      | msg2 h => simp [ha] at h
      | msg1 h => simp [ha] at h
      | msg3 h => simp [ha] at h
  unfold farewell sayGoodbye
  rw [wp_bind, wp_bind, wp_get, wp_ite]
  refine ⟨fun hcond => ?_, fun _ => ?_⟩
  · simp only [Bool.and_eq_true, decide_eq_true_eq] at hcond
    obtain ⟨⟨⟨hp, ha⟩, hk⟩, hepoch⟩ := hcond
    have hcap : REJECT_AFTER_EPOCHS ≤ MAX_QUEUE_BYTES := by decide
    rw [wp_attempt, wp_bind]
    refine wp_sealFrame hs ha (.inr (by omega)) (fun hk => ?_) (fun ct t ht hd _ _ => ?_)
      fun t ht hd _ => finished t false ht (drifted t ha hd)
    · rcases hr with h | ⟨h1, h2⟩ | h
      · exact h.trans_le hs.loads.2
      · simp [h2] at hp
      · exact absurd h hk
    · have hsess := ht.late (hd.authed.trans ha)
      rw [wp_bind]
      refine wp_wire ht (hsess.paid ht _) (hsess.wireLaw ht ct) (fun b u hu hsu => ?_)
        fun u hu hsu => finished u false hsu (drifted u ha (hd.trans (.of_after hu)))
      have hdu := hd.trans (.of_after hu)
      rw [wp_ite]
      refine ⟨fun _ => ?_, fun _ => finished u true hsu (drifted u ha hdu)⟩
      rw [wp_bind]
      exact wp_calm hsu rfl (by simp [Paid, Call.costly])
        (fun b v hv hsv => finished v true hsv (drifted v ha (hdu.trans (.of_after hv))))
        fun v hv hsv => finished v false hsv (drifted v ha (hdu.trans (.of_after hv)))
  · exact finished s false hs hready

/-! ### Records taken in -/

theorem okTail_some {b pt : Bytes} (h : okTail b = some pt) : b = 1 :: pt := by
  unfold okTail at h
  split at h
  · cases h
    rfl
  · simp at h

/-- A new place for the receiving side. -/
theorem Core.recvTo {l : Link} (h : Core l) {e c : Nat} {key : Option Bytes}
    (ha : l.authed = true)
    (hsess : HasSession { l with recvEpoch := e, recvCtr := c, recvKey := key }) :
    Core { l with recvEpoch := e, recvCtr := c, recvKey := key } :=
  { h with
    queue := ⟨h.queue.bytes, h.queue.nonempty, h.queue.length⟩
    early := fun hf => absurd (ha.symm.trans hf) (by simp)
    late := fun _ => hsess }

/-- A record in hand: it opened at the link's place, and the place has moved past it. -/
structure InHand (l : Link) (before : Pos) (pt : Bytes) : Prop where
  core : Core l
  authed : l.authed = true
  ctr : CtrFits l
  law : AcceptedLaw l.spec l.marks before pt l.recvPos
  open_ : l.peerSaidGoodbye = false
  passed : framesOf l.marks = (acceptedRecs l.marks).map Rec.text
  nonempty : ∀ f ∈ framesOf l.marks, f ≠ []
  fits : l.recvCtr < l.spec.rekeyAfterFrames

namespace InHand

variable {l : Link} {before : Pos} {pt : Bytes}

theorem marked (h : InHand l before pt) : Core (l.mark (.accepted before pt l.recvPos)) :=
  h.core.mark h.law (fun _ hr => nomatch hr) fun _ _ _ _ he => nomatch he

theorem endPlace_marked (h : InHand l before pt) :
    l.recvPos.place =
      endPlace (acceptedRecs (l.mark (.accepted before pt l.recvPos)).marks) := by
  simp [Link.mark, acceptedRecs_concat, acceptedOf, endPlace]

/-- An empty record is the peer's goodbye, and closes the link. -/
theorem goodbye (h : InHand l before pt) (hpt : pt.length = 0) :
    Rest (close { l.mark (.accepted before pt l.recvPos) with peerSaidGoodbye := true }) := by
  set v := l.mark (.accepted before pt l.recvPos) with hv
  have hcore : Core { v with peerSaidGoodbye := true, closed := true } :=
    { h.marked with
      queue := ⟨h.marked.queue.bytes, h.marked.queue.nonempty, h.marked.queue.length⟩
      late := h.marked.late
      parted := fun _ => rfl }
  have hsafe : Safe { v with peerSaidGoodbye := true, closed := true } := by
    refine ⟨hcore, fun _ => h.endPlace_marked, ?_, ?_⟩
    · rw [List.length_eq_zero_iff] at hpt
      simp [v, Link.mark, framesOf_concat, acceptedRecs_concat, frameOf, acceptedOf, hpt, h.passed]
    · simpa [v, Link.mark, framesOf_concat, frameOf] using h.nonempty
  have hm := endLink_moves true false { v with peerSaidGoodbye := true }
  have hclosed : (close { v with peerSaidGoodbye := true }).closed = true := by
    unfold close endLink
    split
    · assumption
    · rfl
  refine ⟨?_, .inl hclosed, ?_⟩
  · cases hc : v.closed with
    | true =>
      refine hsafe.of_view ?_
      simp [close, endLink, hc, view, noteEnd]
    | false =>
      have hq := hsafe.moves (enqueue_moves _ .farewell (by simp) rfl)
      refine hq.of_view ?_
      simp [close, endLink, hc, view, enqueue, noteEnd]
  · have hct : CtrFits { v with peerSaidGoodbye := true } := h.ctr
    exact hct.moves hm

/-- Any other record is passed on. -/
theorem wp_pass (h : InHand l before pt) (hpt : pt.length ≠ 0) {E : Link → Prop}
    (hE : ∀ t, Safe t → CtrFits t → E t) :
    (do
      let l ← get
      let _ ← call (.onFrame l.peerId pt)
      return () : LinkProg Unit).wp terms (fun _ => Rest) E
      (l.mark (.accepted before pt l.recvPos)) := by
  set v := l.mark (.accepted before pt l.recvPos) with hv
  have hcore : Core (v.mark (.asked (.onFrame v.peerId pt))) := by
    refine h.marked.mark ⟨?_, trivial⟩ (fun _ hr => by cases hr) fun _ _ _ _ he => by cases he
    simp [Call.costly]
  have hsafe : Safe (v.mark (.asked (.onFrame v.peerId pt))) := by
    refine ⟨hcore, fun _ => ?_, ?_, ?_⟩
    · have hsame : acceptedRecs (v.mark (.asked (.onFrame v.peerId pt))).marks =
          acceptedRecs v.marks := by
        simp [Link.mark, acceptedRecs_concat, acceptedOf]
      rw [hsame]
      exact h.endPlace_marked
    · have hgone : v.peerSaidGoodbye = false := h.open_
      simp only [Link.mark, framesOf_concat, acceptedRecs_concat, v, hgone, h.passed]
      simp [frameOf, acceptedOf, h.open_]
    · intro f hf
      simp only [v, Link.mark, framesOf_concat, List.mem_append] at hf
      rcases hf with (hf | hf) | hf
      · exact h.nonempty f hf
      · simp [frameOf] at hf
      · simp only [frameOf, Option.toList_some, List.mem_singleton] at hf
        rintro rfl
        exact hpt (by simp [← hf])
  have answered : ∀ a s', Moves (v.mark (.asked (.onFrame v.peerId pt))) s' →
      Safe (s'.mark (.done (.onFrame v.peerId pt) a)) ∧
        CtrFits (s'.mark (.done (.onFrame v.peerId pt) a)) := by
    intro a s' hm
    refine ⟨(hsafe.moves hm).mark ?_ (fun _ hr => by cases hr) ⟨rfl, rfl⟩ (fun _ _ _ _ he => by cases he), ?_⟩
    · simp [Law, hm.marks, Link.mark]
    · have hct : CtrFits (v.mark (.asked (.onFrame v.peerId pt))) := h.ctr
      have hct' : CtrFits s' := hct.moves hm
      exact hct'
  rw [wp_bind, wp_get, wp_bind, wp_call]
  refine ⟨⟨hsafe, trivial⟩, fun s' hm => ⟨fun b => ?_, ?_⟩⟩
  · obtain ⟨h1, h2⟩ := answered (some b) s' hm
    refine ⟨h1, .inr (.inr (.record ?_ ?_)), h2⟩
    · exact hm.authed.trans h.authed
    · have h3 : s'.recvCtr = l.recvCtr := hm.recvCtr
      have h4 : s'.spec = l.spec := hm.spec
      have h5 : s'.recvCtr < s'.spec.rekeyAfterFrames := by
        rw [h3, h4]
        exact h.fits
      exact h5
  · obtain ⟨h1, h2⟩ := answered none s' hm
    exact hE _ h1 h2

end InHand

/-- Where the receiving side stands once a record opened: it holds the record, or it threw
in the ratchet. -/
theorem wp_advanceRecv {s t : Link} {key ct pt ks kr : Bytes} {th : Option Bytes}
    {Q : Unit → Link → Prop} {E : Link → Prop} (hs : Safe s) (ha : s.authed = true)
    (hctr : s.recvCtr < s.spec.rekeyAfterFrames) (hgone : s.peerSaidGoodbye = false)
    (hf : CtrFits s) (hkey : s.recvKey = some key)
    (hmem : Mark.session s.peerId th ks kr ∈ s.marks)
    (hsend : ∀ k, s.sendKey = some k → KeyChain s.marks ks s.sendEpoch k)
    (hrecv : ∀ k, s.recvKey = some k → KeyChain s.marks kr s.recvEpoch k)
    (ht : After (.aeadOpen key (nonce s.recvEpoch s.recvCtr) ct) (some (1 :: pt)) s t)
    (hst : Safe t)
    (hQ : ∀ u, InHand u ⟨s.recvEpoch, s.recvCtr, some key⟩ pt → Q () u)
    (hE : ∀ u, Safe u → CtrFits u → E u) :
    advanceRecv.wp terms Q E t.markTraffic := by
  have hta : t.authed = true := ht.authed.trans ha
  have htp : t.peerId = s.peerId := ht.peerId
  have hgt : t.peerSaidGoodbye = false := ht.moves.peerSaidGoodbye.trans hgone
  have hacc : acceptedRecs t.marks = acceptedRecs s.marks := by
    simp [ht.marks, acceptedRecs, List.filterMap_append, acceptedOf]
  have hfr : framesOf t.marks = framesOf s.marks := by
    simp [ht.marks, framesOf, List.filterMap_append, frameOf]
  have hpassed : framesOf s.marks = (acceptedRecs s.marks).map Rec.text := by
    have := hs.passed
    simpa [hgone] using this
  -- The law of the record, in any later log that has no record more.
  have law : ∀ (u : Link), u.spec = s.spec → t.marks ⊆ u.marks →
      acceptedRecs u.marks = acceptedRecs s.marks →
      u.recvPos.place = advance s.spec.rekeyAfterFrames s.recvPos.place →
      (∀ k, u.recvKey = some k → KeyChain u.marks kr u.recvEpoch k) →
      AcceptedLaw u.spec u.marks ⟨s.recvEpoch, s.recvCtr, some key⟩ pt u.recvPos := by
    intro u hspec hsub hrecs hplace hnext
    have hsub' : s.marks ⊆ u.marks := List.Subset.trans ht.subset hsub
    refine ⟨⟨s.peerId, th, ks, kr, hsub' hmem, ⟨key, rfl, (hrecv key hkey).longer hsub'⟩, ?_, hnext⟩,
      ⟨key, ct, rfl, ht.answers.longer hsub⟩, ?_, ?_⟩
    · rw [hspec]
      exact hplace
    · rw [hrecs]
      exact hs.recvHere hctr
    · rw [hrecs]
      intro r hr
      exact hs.nonempty _ (hpassed ▸ List.mem_map_of_mem hr)
  have hsess : ∀ c, HasSession { t.markTraffic with recvCtr := c } := by
    intro c
    obtain h := hst.late hta
    exact h
  have hcore : ∀ c, Core { t.markTraffic with recvCtr := c } := fun c =>
    have hcore' : Core t.markTraffic := hst.toCore.of_view rfl
    hcore'.recvTo hta (hsess c)
  have hft' : CtrFits t := hf.after ht
  have hft : ∀ c, CtrFits { t.markTraffic with recvCtr := c } := fun _ => hft'
  unfold advanceRecv
  rw [wp_bind, wp_modify, wp_bind, wp_get, wp_ite]
  refine ⟨fun hrekey => ?_, fun hrekey => ?_⟩
  · have h1 : s.spec.rekeyAfterFrames ≤ s.recvCtr + 1 := by
      simpa [markTraffic, ht.spec, ht.recvCtr] using hrekey
    have hu : Safe { t.markTraffic with recvCtr := t.markTraffic.recvCtr + 1 } := by
      refine ⟨hcore _, fun hlt => ?_, hst.passed, hst.nonempty⟩
      exact absurd hrekey (Nat.not_le.2 hlt)
    rw [wp_bind]
    simp only [ratchet]
    rw [wp_bind, wp_need]
    refine ⟨fun k hk => ?_, fun _ => hE _ hu (hft _)⟩
    obtain rfl : k = key :=
      Option.some.inj ((ht.moves.recvKey.of_some hk).symm.trans hkey)
    refine wp_calm hu rfl (by simp [Paid, Call.costly]) (fun next v hv hsv => ?_)
      fun v hv hsv => hE v hsv ((hft _).after hv)
    have hve : v.recvEpoch = s.recvEpoch := hv.recvEpoch.trans ht.recvEpoch
    have hvs : v.spec = s.spec := hv.spec.trans ht.spec
    have hsub : t.marks ⊆ v.marks := hv.subset
    have hchain : KeyChain v.marks kr (v.recvEpoch + 1) next := by
      rw [hve]
      exact .succ ((hrecv k hkey).longer (List.Subset.trans ht.subset hsub)) hv.answers
    have hvacc : acceptedRecs v.marks = acceptedRecs s.marks := by
      rw [← hacc]
      simp [hv.marks, markTraffic, acceptedRecs, List.filterMap_append, acceptedOf]
    have hvfr : framesOf v.marks = framesOf s.marks := by
      rw [← hfr]
      simp [hv.marks, markTraffic, framesOf, List.filterMap_append, frameOf]
    have hfv : CtrFits v := (hft _).after hv
    rw [wp_modify]
    refine hQ _ ⟨?_, hv.authed.trans hta, hfv, ?_, ?_, ?_, ?_, ?_⟩
    · refine hsv.toCore.recvTo (hv.authed.trans hta) ⟨th, ks, kr, ?_, ?_, ?_⟩
      · rw [show v.peerId = s.peerId from hv.peerId.trans htp]
        exact hsub (ht.subset hmem)
      · intro k' hk'
        simp only [show v.sendEpoch = s.sendEpoch from hv.sendEpoch.trans ht.sendEpoch]
        exact (hsend k' (ht.moves.sendKey.of_some (hv.moves.sendKey.of_some hk'))).longer
          (List.Subset.trans ht.subset hsub)
      · rintro k' ⟨⟩
        exact hchain
    · refine law _ hvs hsub hvacc ?_ ?_
      · simp [Pos.place, recvPos, advance, h1, hve]
      · rintro k' ⟨⟩
        exact hchain
    · exact hv.moves.peerSaidGoodbye.trans hgt
    · simp only [hvfr, hvacc]
      exact hpassed
    · simp only [hvfr]
      exact hs.nonempty
    · have := hs.loads.1
      simp only [hvs]
      omega
  · have h1 : ¬ s.spec.rekeyAfterFrames ≤ s.recvCtr + 1 := by
      simpa [markTraffic, ht.spec, ht.recvCtr] using hrekey
    rw [wp_pure]
    refine hQ _ ⟨hcore _, hta, hft _, ?_, hgt, ?_, ?_, ?_⟩
    · refine law _ ht.spec (List.Subset.refl _) hacc ?_ ?_
      · simp [Pos.place, recvPos, advance, h1, markTraffic, ht.recvEpoch, ht.recvCtr]
      · intro k hk
        obtain rfl : k = key :=
          Option.some.inj ((ht.moves.recvKey.of_some hk).symm.trans hkey)
        simp only [markTraffic, ht.recvEpoch]
        exact (hrecv k hkey).longer ht.subset
    · simp only [markTraffic, hfr, hacc]
      exact hpassed
    · simp only [markTraffic, hfr]
      exact hs.nonempty
    · simpa using hrekey

theorem wp_onRecord {body : Bytes} {s : Link} (hs : Safe s) (ha : s.authed = true)
    (hctr : s.recvCtr < s.spec.rekeyAfterFrames) (hopen : s.closed = false) (hf : CtrFits s) :
    (onRecord body).wp terms (fun _ => Rest) (fun t => Rest t.refuse) s := by
  obtain ⟨th, ks, kr, hmem, hsend, hrecv⟩ := hs.late ha
  have hgone : s.peerSaidGoodbye = false := by
    by_contra h
    have := hs.parted (by simpa using h)
    simp [this] at hopen
  unfold onRecord
  rw [wp_bind, wp_get, wp_ite]
  refine ⟨fun _ => .of_abort true hs, fun _ => ?_⟩
  rw [wp_ite]
  refine ⟨fun _ => .of_abort false hs, fun _ => ?_⟩
  rw [wp_bind, wp_need]
  refine ⟨fun key hkey => ?_, fun _ => .of_refuse hs hf⟩
  simp only [aeadDec]
  rw [wp_bind, wp_bind]
  refine wp_calm hs rfl (by simp [Paid, Call.costly]) (fun b t ht hst => ?_)
    fun t ht hst => .of_refuse hst (hf.after ht)
  rw [wp_pure]
  cases hb : okTail b with
  | none => exact .of_abort true hst
  | some pt =>
    obtain rfl := okTail_some hb
    simp only
    rw [wp_bind, wp_modify, wp_bind]
    refine wp_advanceRecv hs ha hctr hgone hf hkey hmem hsend hrecv ht hst (fun u hu => ?_)
      fun u hsu hfu => .of_refuse hsu hfu
    rw [wp_bind, wp_modify, wp_ite]
    refine ⟨fun hpt => ?_, fun hpt => ?_⟩
    · rw [wp_bind, wp_modify, wp_modify]
      exact hu.goodbye hpt
    · exact hu.wp_pass hpt fun v hsv hfv => .of_refuse hsv hfv

end Link

end SeedTransport
