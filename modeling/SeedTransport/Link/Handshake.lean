import SeedTransport.Link.Records

set_option autoImplicit false

namespace SeedTransport

/-! The handshake keeps to the laws, whatever comes in and however its steps are
interrupted. -/

open Async Async.Prog

namespace Link

/-! ### What a step of the handshake keeps -/

/-- What calls that neither seal nor open a session leave of a link. -/
structure Flows (s t : Link) : Prop where
  spec : t.spec = s.spec
  node : t.node = s.node
  root : t.root = s.root
  secret : t.contactSecret = s.contactSecret
  peerId : t.peerId = s.peerId
  authed : t.authed = s.authed
  peerEph : t.peerEph = s.peerEph
  th : t.th = s.th
  ee : KeptOrWiped s.ee t.ee
  ss : KeptOrWiped s.kemSecret t.kemSecret
  marks : s.marks ⊆ t.marks
  seals : ∀ k n p, Mark.asked (.aeadSeal k n p) ∈ t.marks → Mark.asked (.aeadSeal k n p) ∈ s.marks
  sessions : ∀ p th a b, Mark.session p th a b ∈ t.marks → Mark.session p th a b ∈ s.marks

/-- The call makes no seal. -/
def noSeal : Call → Bool
  | .aeadSeal _ _ _ => false
  | _ => true

namespace Flows

variable {s t u : Link}

theorem refl (s : Link) : Flows s s :=
  ⟨rfl, rfl, rfl, rfl, rfl, rfl, rfl, rfl, .refl _, .refl _, List.Subset.refl _,
    fun _ _ _ => id, fun _ _ _ _ => id⟩

theorem trans (h : Flows s t) (h' : Flows t u) : Flows s u where
  spec := h'.spec.trans h.spec
  node := h'.node.trans h.node
  root := h'.root.trans h.root
  secret := h'.secret.trans h.secret
  peerId := h'.peerId.trans h.peerId
  authed := h'.authed.trans h.authed
  peerEph := h'.peerEph.trans h.peerEph
  th := h'.th.trans h.th
  ee := h.ee.trans h'.ee
  ss := h.ss.trans h'.ss
  marks := List.Subset.trans h.marks h'.marks
  seals k n p hm := h.seals k n p (h'.seals k n p hm)
  sessions p th a b hm := h.sessions p th a b (h'.sessions p th a b hm)

theorem of_after {c : Call} {a : Option Bytes} (h : After c a s t) (hc : noSeal c = true) :
    Flows s t where
  spec := h.spec
  node := h.node
  root := h.root
  secret := h.contactSecret
  peerId := h.peerId
  authed := h.authed
  peerEph := h.peerEph
  th := h.th
  ee := h.moves.ee
  ss := h.moves.kemSecret
  marks := h.subset
  seals k n p hm := by
    rw [h.marks] at hm
    simp only [List.mem_append, List.mem_cons, List.not_mem_nil, or_false, Mark.asked.injEq,
      reduceCtorEq] at hm
    rcases hm with hm | hm
    · exact hm
    · subst hm
      simp [noSeal] at hc
  sessions p th a b hm := by
    rw [h.marks] at hm
    simpa using hm

theorem noSession (h : Flows s t) (hn : NoSession s.marks) : NoSession t.marks :=
  fun p th a b hm => hn p th a b (h.sessions p th a b hm)

theorem onlySeals {labels : List Bytes} (h : Flows s t) (hn : OnlySeals labels s.marks) :
    OnlySeals labels t.marks := by
  intro k n p hm
  obtain ⟨label, hl, hk⟩ := hn k n p (h.seals k n p hm)
  exact ⟨label, hl, hk.longer h.marks⟩

end Flows

/-- An accept whose msg1 is proved, or a dial: costly calls are in order. -/
def Cleared (l : Link) : Prop := l.spec.weDialed = false → ∃ p : Probe, p.Proved l.spec l.marks

theorem Cleared.paid {l : Link} (h : Cleared l) (c : Call) : Paid c l := fun _ => h

theorem Cleared.longer {s t : Link} (h : Cleared s) (hspec : t.spec = s.spec)
    (hsub : s.marks ⊆ t.marks) : Cleared t := by
  intro hd
  rw [hspec] at hd ⊢
  exact (h hd).imp fun p hp => hp.longer hsub

theorem Cleared.flows {s t : Link} (h : Cleared s) (hf : Flows s t) : Cleared t :=
  h.longer hf.spec hf.marks

theorem cleared_of_dialed {l : Link} (h : l.spec.weDialed = true) : Cleared l := by
  intro hd
  simp [h] at hd

/-- The call rule of the handshake: a calm call, with one continuation for whatever it
throws. -/
theorem wp_step {c : Call} {Q : Bytes → Link → Prop} {E : Link → Prop} {s : Link} (hs : Safe s)
    (hc : calm c = true) (hp : Paid c s)
    (hQ : ∀ b t, After c (some b) s t → Safe t → Flows s t → Q b t)
    (hE : ∀ t, Safe t → t.authed = s.authed → E t) :
    (call c : LinkProg Bytes).wp terms Q E s := by
  have hn : noSeal c = true := by cases c <;> simp_all [calm, noSeal]
  exact wp_calm hs hc hp (fun b t ht hst => hQ b t ht hst (.of_after ht hn))
    fun t ht hst => hE t hst ht.authed

theorem wp_hash {x : Bytes} {Q : Bytes → Link → Prop} {E : Link → Prop} {s : Link} (hs : Safe s)
    (hQ : ∀ b t, After (.hash x) (some b) s t → Safe t → Flows s t → Q b t)
    (hE : ∀ t, Safe t → t.authed = s.authed → E t) : (hash x).wp terms Q E s :=
  wp_step hs rfl (by simp [Paid, Call.costly]) hQ hE

theorem wp_wait {Q : Unit → Link → Prop} {E : Link → Prop} {s : Link} (hs : Safe s)
    (hQ : ∀ t, Safe t → Flows s t → Q () t) : (turn .turn : LinkProg Unit).wp terms Q E s := by
  have hlaw : Law s.spec s.node.ownPk s.marks (.asked .turn) := ⟨by simp [Call.costly], trivial⟩
  rw [wp_turn]
  refine ⟨⟨hs.mark hlaw (by simp [sealedOf]) ⟨rfl, rfl⟩ (fun _ _ _ _ he => by cases he), trivial⟩, ?_⟩
  intro a s' hr
  have ht : After .turn a s (s'.mark (.done .turn a)) := .of_rely hr
  exact hQ _ (ht.safe hs hlaw rfl (fun _ _ _ _ he => by cases he)) (.of_after ht rfl)

/-! ### The helpers of the handshake -/

theorem wp_aeadDec {key npub ct : Bytes} {Q : Option Bytes → Link → Prop} {E : Link → Prop}
    {s : Link} (hs : Safe s)
    (hok : ∀ pt t, Answers t.marks (.aeadOpen key npub ct) (1 :: pt) → Safe t → Flows s t →
      (∀ p, t.myEph = some p → s.myEph = some p) → (∀ p, t.myKem = some p → s.myKem = some p) →
      Q (some pt) t)
    (hno : ∀ t, Safe t → Flows s t → Q none t)
    (hE : ∀ t, Safe t → t.authed = s.authed → E t) : (aeadDec key npub ct).wp terms Q E s := by
  unfold aeadDec
  rw [wp_bind]
  refine wp_step hs rfl (by simp [Paid, Call.costly]) (fun b t ht hst hf => ?_) hE
  rw [wp_pure]
  cases hb : okTail b with
  | none => exact hno t hst hf
  | some pt =>
    obtain rfl := okTail_some hb
    exact hok pt t ht.answers hst hf (fun p hp => ht.moves.myEph.of_some hp)
      fun p hp => ht.moves.myKem.of_some hp

/-- What `kdf` hashes, if none of it is missing. -/
theorem wp_kdf {ikm : List (Option Bytes)} {ctx : Option Bytes} {label : Bytes}
    {Q : Bytes → Link → Prop} {E : Link → Prop} {s : Link} (hs : Safe s)
    (hQ : ∀ parts secret c k t, ikm.mapM id = some parts → s.contactSecret = some secret →
      ctx = some c → After (.hash (parts.flatten ++ secret ++ c ++ label)) (some k) s t →
      Safe t → Flows s t → Q k t)
    (hE : ∀ t, Safe t → t.authed = s.authed → E t) : (kdf ikm ctx label).wp terms Q E s := by
  unfold kdf
  rw [wp_bind, wp_need]
  refine ⟨fun parts hparts => ?_, fun _ => hE s hs rfl⟩
  rw [wp_bind, wp_get, wp_bind, wp_need]
  refine ⟨fun secret hsecret => ?_, fun _ => hE s hs rfl⟩
  rw [wp_bind, wp_need]
  refine ⟨fun c hc => ?_, fun _ => hE s hs rfl⟩
  exact wp_hash hs (fun k t ht hst hf => hQ parts secret c k t hparts hsecret hc ht hst hf) hE

/-- The key of two shared secrets. -/
theorem wp_kdf_pair {a b ctx : Option Bytes} {label : Bytes} {Q : Bytes → Link → Prop}
    {E : Link → Prop} {s : Link} (hs : Safe s)
    (hQ : ∀ x y secret c k t, a = some x → b = some y → s.contactSecret = some secret →
      ctx = some c → After (.hash ([x, y].flatten ++ secret ++ c ++ label)) (some k) s t →
      Safe t → Flows s t → Q k t)
    (hE : ∀ t, Safe t → t.authed = s.authed → E t) : (kdf [a, b] ctx label).wp terms Q E s := by
  refine wp_kdf hs (fun parts secret c k t hparts hsecret hc ht hst hf => ?_) hE
  cases a with
  | none => simp at hparts
  | some x =>
    cases b with
    | none => simp at hparts
    | some y =>
      simp at hparts
      subst hparts
      exact hQ x y secret c k t rfl rfl hsecret hc ht hst hf

/-- A seal of the handshake: a key of a label no seal was made under yet. -/
theorem wp_sealZero {key plain : Bytes} (label : Bytes) {Q : Bytes → Link → Prop} {E : Link → Prop} {s : Link}
    (hs : Safe s) (hp : Cleared s) (hl : label ∈ handshakeLabels) (hk : Keyed s.marks label key)
    (hnew : ∀ k n p, Mark.asked (.aeadSeal k n p) ∈ s.marks →
      ∃ label' ∈ handshakeLabels, label' ≠ label ∧ Keyed s.marks label' k)
    (hQ : ∀ b t, After (.aeadSeal key ZERO_NPUB plain) (some b) s t → Safe t → Q b t)
    (hE : ∀ t, Safe t → t.authed = s.authed → E t) : (sealZero key plain).wp terms Q E s := by
  have hlaw : Law s.spec s.node.ownPk s.marks (.asked (.aeadSeal key ZERO_NPUB plain)) :=
    ⟨hp.paid _, .inl ⟨label, hl, rfl, hk, hnew⟩⟩
  have hk' : ∀ a k n p ct, Mark.done (.aeadSeal key ZERO_NPUB plain) a =
      .done (.aeadSeal k n p) (some ct) → ∃ label ∈ handshakeLabels, Keyed s.marks label k := by
    intro a k n p ct he
    cases he
    exact ⟨label, hl, hk⟩
  unfold sealZero
  refine wp_ask ⟨hs.mark hlaw (by simp [sealedOf]) ⟨rfl, rfl⟩ (fun _ _ _ _ he => nomatch he), ?_⟩
    (fun b t ht => hQ b t ht (ht.safe hs hlaw rfl (hk' _)))
    fun t ht => hE t (ht.safe hs hlaw rfl (hk' _)) ht.authed
  exact .inl ⟨rfl, label, hl, hk.longer (by simp [Link.mark])⟩

theorem wp_signTranscript {th : Bytes} {Q : Option Bytes → Link → Prop} {E : Link → Prop} {s : Link}
    (hs : Safe s) (hp : Cleared s)
    (hlaw : ∀ root, s.root = some root →
      SignLaw s.spec s.node.ownPk s.marks (channelIdentityMessage root th s.node.ownPk))
    (hQ : ∀ root sig t, s.root = some root →
      After (.sign (channelIdentityMessage root th s.node.ownPk)) (some sig) s t → Safe t →
      Flows s t → Q (some sig) t)
    (hno : ∀ t, Safe t → t.authed = s.authed → Q none (t.abort false)) :
    (signTranscript th).wp terms Q E s := by
  unfold signTranscript
  rw [wp_attempt, wp_bind, wp_get, wp_bind, wp_need]
  refine ⟨fun root hroot => ?_, fun _ => hno s hs rfl⟩
  rw [wp_bind]
  exact wp_sign hs (hp.paid _) (hlaw root hroot)
    (fun sig t ht hst => hQ root sig t hroot ht hst (.of_after ht rfl)) fun t ht hst => hno t hst ht.authed

/-! ### Becoming authenticated -/

/-- Before authentication the session's keys may come and go. -/
theorem Safe.setKeys {l : Link} (h : Safe l) (ha : l.authed = false) (a b : Option Bytes) :
    Safe { l with sendKey := a, recvKey := b } :=
  ⟨{ h.toCore with
      queue := ⟨h.queue.bytes, h.queue.nonempty, h.queue.length⟩
      late := fun h => by simp [ha] at h }, h.recvHere, h.passed, h.nonempty⟩

theorem Safe.setPeer {l : Link} (h : Safe l) (ha : l.authed = false) (k : Option Bytes) (p : Bytes) :
    Safe { l with peerPubkey := k, peerId := p } :=
  ⟨{ h.toCore with
      queue := ⟨h.queue.bytes, h.queue.nonempty, h.queue.length⟩
      late := fun h => by simp [ha] at h }, h.recvHere, h.passed, h.nonempty⟩

theorem Safe.setRoot {l : Link} (h : Safe l) {r : Bytes}
    (hr : Answers l.marks (.hash (DOMAIN_CHANNEL ++ l.spec.networkKey)) r) :
    Safe { l with root := some r } :=
  ⟨{ h.toCore with
      queue := ⟨h.queue.bytes, h.queue.nonempty, h.queue.length⟩
      late := h.late
      root := by
        rintro q ⟨⟩
        exact hr }, h.recvHere, h.passed, h.nonempty⟩

theorem wp_becomeAuthed {s : Link} {th : Option Bytes} {ks kr : Bytes} {E : Link → Prop}
    (hs : Safe s) (ha : s.authed = false) (hmem : Mark.session s.peerId th ks kr ∈ s.marks)
    (hsend : ∀ k, s.sendKey = some k → k = ks) (hrecv : ∀ k, s.recvKey = some k → k = kr)
    (hE : ∀ t, Safe t → CtrFits t → E t) : becomeAuthed.wp terms (fun _ => Rest) E s := by
  obtain ⟨h1, h2, h3, h4, h5⟩ := hs.early ha
  have hrekey := hs.loads.1
  have hs' : Safe { s with authed := true } := by
    refine ⟨{ hs.toCore with
        queue := ⟨hs.queue.bytes, hs.queue.nonempty, hs.queue.length⟩
        early := fun h => by simp at h
        late := fun _ => ⟨th, ks, kr, hmem, ?_, ?_⟩ }, hs.recvHere, hs.passed, hs.nonempty⟩
    · intro k hk
      obtain rfl := hsend k hk
      simp only [h1]
      exact .zero
    · intro k hk
      obtain rfl := hrecv k hk
      simp only [h3]
      exact .zero
  unfold becomeAuthed
  rw [wp_bind, wp_get, wp_ite]
  refine ⟨fun hc => ⟨hs, .inl hc, hs.unauthed_ctr ha⟩, fun _ => ?_⟩
  rw [wp_bind, wp_modify, wp_bind, wp_get, wp_ite]
  refine ⟨fun _ => .of_abort false hs', fun _ => ?_⟩
  rw [wp_bind, wp_modify, wp_bind, wp_modify, wp_bind]
  have hctr : CtrFits { s with authed := true } := .inl (by simp only [h2]; omega)
  refine wp_calm (hs'.of_view rfl) rfl (by simp [Paid, Call.costly]) (fun b t ht hst => ?_)
    fun t ht hst => hE t hst (CtrFits.after (l := armIdle (moveTier _ _ { s with authed := true }))
      hctr ht)
  have hft : CtrFits t := CtrFits.after (l := armIdle (moveTier _ _ { s with authed := true })) hctr ht
  have hta : t.authed = true := ht.authed
  have htr : t.recvCtr = 0 := ht.recvCtr.trans h4
  have hte : t.sendEpoch = 0 := ht.sendEpoch.trans h1
  have htc : t.sendCtr = 0 := ht.sendCtr.trans h2
  have hts : t.spec = s.spec := ht.spec
  rw [wp_bind, wp_get, wp_ite]
  refine ⟨fun hc => ⟨hst, .inl hc, hft⟩, fun _ => ?_⟩
  have hm := takeQueued_moves t
  have hlen := hst.queue.length
  rw [wp_bind, wp_modify]
  refine wp_flush (hst.moves hm) hta (by simp [takeQueued, hte]; omega)
    (by simp [takeQueued, htc]; omega) (hft.moves hm) fun u hu hd hfu => ?_
  refine ⟨hu, .inr (.inr (.record (hd.authed.trans hta) ?_)), hfu⟩
  have h6 : u.recvCtr = t.recvCtr := hd.recvCtr
  have h7 : u.spec = t.spec := hd.spec
  rw [h6, h7, htr, hts]
  omega

/-- The session's keys, once their context is there: the mark of the session comes with
the law it has to meet. -/
theorem wp_derive {s : Link} (ee ss secret fin : Bytes) {Q : Unit → Link → Prop}
    {E : Link → Prop} (hs : Safe s) (ha : s.authed = false) (hth : s.th = some fin)
    (hsecret : s.contactSecret = some secret) (hee : ∀ x, s.ee = some x → x = ee)
    (hss : ∀ x, s.kemSecret = some x → x = ss) (hnew : NoSession s.marks)
    (hlaw : ∀ log i2r r2i, s.marks ⊆ log →
      Answers log (.hash ([ee, ss].flatten ++ secret ++ fin ++ LABEL_I2R)) i2r →
      Answers log (.hash ([ee, ss].flatten ++ secret ++ fin ++ LABEL_R2I)) r2i →
      SessionLaw s.spec s.node.ownPk log s.peerId (some fin)
        (if s.spec.weDialed then i2r else r2i) (if s.spec.weDialed then r2i else i2r))
    (hQ : ∀ t ks kr, Safe t → t.authed = false → t.spec = s.spec → t.node = s.node →
      s.marks ⊆ t.marks → Mark.session t.peerId (some fin) ks kr ∈ t.marks →
      (∀ k, t.sendKey = some k → k = ks) → (∀ k, t.recvKey = some k → k = kr) → Q () t)
    (hE : ∀ t, Safe t → t.authed = false → E t) :
    deriveConcealedSession.wp terms Q E s := by
  unfold deriveConcealedSession
  rw [wp_bind, wp_get, wp_bind]
  refine wp_kdf_pair hs (fun x y sec c i2r t hx hy hsec hc ht hst hf => ?_)
    fun t hst hta => hE t hst (hta.trans ha)
  obtain rfl := (hee x hx).symm
  obtain rfl := (hss y hy).symm
  obtain rfl : secret = sec := Option.some.inj (hsecret.symm.trans hsec)
  obtain rfl : fin = c := Option.some.inj (hth.symm.trans hc)
  have hta : t.authed = false := hf.authed.trans ha
  -- The first key is in place; the second is derived from what is left of the secrets.
  generalize hu : (if t.spec.weDialed then { t with sendKey := some i2r }
    else { t with recvKey := some i2r }) = u
  have hsu : Safe u := by
    subst hu
    split
    · exact hst.setKeys hta _ t.recvKey
    · exact hst.setKeys hta t.sendKey _
  have hfu : Flows t u := by
    subst hu
    split <;> exact ⟨rfl, rfl, rfl, rfl, rfl, rfl, rfl, rfl, .refl _, .refl _,
      List.Subset.refl _, fun _ _ _ => id, fun _ _ _ _ => id⟩
  have hf1 := hf.trans hfu
  rw [wp_bind, wp_modify, hu, wp_bind, wp_get, wp_bind]
  refine wp_kdf_pair hsu (fun x' y' sec c' r2i v hx' hy' hsec' hc' hv hsv hfv => ?_)
    fun t hst hta => hE t hst (hta.trans (hf1.authed.trans ha))
  have hf2 := hf1.trans hfv
  obtain rfl := (hee x' (hf1.ee.of_some hx')).symm
  obtain rfl := (hss y' (hf1.ss.of_some hy')).symm
  obtain rfl : secret = sec := Option.some.inj ((hf1.secret.trans hsecret).symm.trans hsec')
  obtain rfl : fin = c' := Option.some.inj ((hf1.th.trans hth).symm.trans hc')
  have hva : v.authed = false := hf2.authed.trans ha
  have hkeys : (s.spec.weDialed = true → ∀ k, v.sendKey = some k → k = i2r) ∧
      (s.spec.weDialed = false → ∀ k, v.recvKey = some k → k = i2r) := by
    refine ⟨fun hd k hk => ?_, fun hd k hk => ?_⟩
    · have h1 := hv.moves.sendKey.of_some hk
      rw [← hu, hf.spec, hd] at h1
      exact (Option.some.inj h1).symm
    · have h1 := hv.moves.recvKey.of_some hk
      rw [← hu, hf.spec, hd] at h1
      exact (Option.some.inj h1).symm
  have hsess := hlaw v.marks i2r r2i hf2.marks
    ((ht.answers.longer hfu.marks).longer hfv.marks) hv.answers
  rw [wp_bind, wp_modify, wp_bind, wp_modify, wp_modify]
  rw [← hf2.spec, ← hf2.node, ← hf2.peerId] at hsess
  cases hd : s.spec.weDialed with
  | true =>
    have hd' : v.spec.weDialed = true := by rw [hf2.spec, hd]
    have h1 := hsv.setKeys hva v.sendKey (some r2i)
    have h2 := h1.mark (m := .session v.peerId v.th i2r r2i)
      ⟨hf2.noSession hnew, by
        rw [hf2.th, hth]
        simpa [hd'] using hsess⟩
      (fun _ hr => by cases hr) ⟨rfl, rfl⟩ fun _ _ _ _ he => by cases he
    have h3 := h2.moves (clearEphemeral_moves _)
    simp only [hd', if_true]
    refine hQ _ i2r r2i h3 hva hf2.spec hf2.node ?_ ?_ ?_ ?_
    · exact List.Subset.trans hf2.marks (by simp [clearEphemeral, Link.mark])
    · simp [clearEphemeral, Link.mark, hf2.th, hth]
    · exact hkeys.1 hd
    · rintro k ⟨⟩
      rfl
  | false =>
    have hd' : v.spec.weDialed = false := by rw [hf2.spec, hd]
    have h1 := hsv.setKeys hva (some r2i) v.recvKey
    have h2 := h1.mark (m := .session v.peerId v.th r2i i2r)
      ⟨hf2.noSession hnew, by
        rw [hf2.th, hth]
        simpa [hd'] using hsess⟩
      (fun _ hr => by cases hr) ⟨rfl, rfl⟩ fun _ _ _ _ he => by cases he
    have h3 := h2.moves (clearEphemeral_moves _)
    simp only [hd', Bool.false_eq_true, if_false]
    refine hQ _ r2i i2r h3 hva hf2.spec hf2.node ?_ ?_ ?_ ?_
    · exact List.Subset.trans hf2.marks (by simp [clearEphemeral, Link.mark])
    · simp [clearEphemeral, Link.mark, hf2.th, hth]
    · rintro k ⟨⟩
      rfl
    · exact hkeys.2 hd

/-! ### A link's own keys -/

theorem Safe.setEph {l : Link} (h : Safe l) {p : KeyPair}
    (hp : Answers l.marks (.dh p.privateKey X25519_BASEPOINT) (1 :: p.publicKey)) :
    Safe { l with myEph := some p } :=
  ⟨{ h.toCore with
      queue := ⟨h.queue.bytes, h.queue.nonempty, h.queue.length⟩
      late := h.late
      eph := by
        rintro q ⟨⟩
        exact hp }, h.recvHere, h.passed, h.nonempty⟩

theorem Safe.setKem {l : Link} (h : Safe l) {seed r : Bytes}
    (hr : Answers l.marks (.kemKeypair seed) r) (hlen : r.length = KEM_PK_LEN + KEM_SK_LEN) :
    Safe { l with myKem := some ⟨r.take KEM_PK_LEN, r.drop KEM_PK_LEN⟩ } :=
  ⟨{ h.toCore with
      queue := ⟨h.queue.bytes, h.queue.nonempty, h.queue.length⟩
      late := h.late
      kem := by
        rintro q ⟨⟩
        exact ⟨seed, r, hr, hlen, rfl⟩ }, h.recvHere, h.passed, h.nonempty⟩

theorem wp_ensureEph {s : Link} {Q : Unit → Link → Prop} {E : Link → Prop} (hs : Safe s)
    (hp : Cleared s) (hQ : ∀ t, Safe t → Flows s t → Q () t)
    (hE : ∀ t, Safe t → t.authed = s.authed → E t) : ensureEph.wp terms Q E s := by
  unfold ensureEph
  rw [wp_bind, wp_get, wp_ite]
  refine ⟨fun _ => ?_, fun _ => hQ s hs (.refl s)⟩
  simp only [boxKeypair, scalarmult]
  rw [wp_bind, wp_bind]
  refine wp_step hs rfl (hp.paid _) (fun sk t ht hst hf => ?_) hE
  rw [wp_bind, wp_bind]
  refine wp_step hst rfl ((hp.flows hf).paid _) (fun b u hu hsu hfu => ?_)
    fun u hsu hau => hE u hsu (hau.trans hf.authed)
  rw [wp_pure, wp_bind, wp_need]
  have hf' := hf.trans hfu
  refine ⟨fun x hx => ?_, fun _ => hE u hsu hf'.authed⟩
  obtain rfl := okTail_some hx
  rw [wp_pure, wp_modify]
  exact hQ _ (hsu.setEph (p := ⟨x, sk⟩) hu.answers)
    ⟨hf'.spec, hf'.node, hf'.root, hf'.secret, hf'.peerId, hf'.authed, hf'.peerEph, hf'.th, hf'.ee,
      hf'.ss, hf'.marks, hf'.seals, hf'.sessions⟩

theorem wp_ensureKem {s : Link} {Q : Unit → Link → Prop} {E : Link → Prop} (hs : Safe s)
    (hp : Cleared s) (hQ : ∀ t, Safe t → Flows s t → Q () t)
    (hE : ∀ t, Safe t → t.authed = s.authed → E t) : ensureKem.wp terms Q E s := by
  unfold ensureKem
  rw [wp_bind, wp_get, wp_ite]
  refine ⟨fun _ => ?_, fun _ => hQ s hs (.refl s)⟩
  rw [wp_bind]
  refine wp_step hs rfl (hp.paid _) (fun seed t ht hst hf => ?_) hE
  simp only [kemKeypair]
  rw [wp_bind, wp_bind]
  refine wp_step hst rfl ((hp.flows hf).paid _) (fun r u hu hsu hfu => ?_)
    fun u hsu hau => hE u hsu (hau.trans hf.authed)
  have hf' := hf.trans hfu
  rw [wp_ite]
  refine ⟨fun _ => hE u hsu hf'.authed, fun hlen => ?_⟩
  rw [wp_pure, wp_modify]
  exact hQ _ (hsu.setKem hu.answers (by simpa using hlen))
    ⟨hf'.spec, hf'.node, hf'.root, hf'.secret, hf'.peerId, hf'.authed, hf'.peerEph, hf'.th, hf'.ee,
      hf'.ss, hf'.marks, hf'.seals, hf'.sessions⟩

theorem wp_ensureKeys {s : Link} {Q : Unit → Link → Prop} {E : Link → Prop} (hs : Safe s)
    (hp : Cleared s) (hQ : ∀ t, Safe t → Flows s t → Q () t)
    (hE : ∀ t, Safe t → t.authed = s.authed → E t) : ensureKeys.wp terms Q E s := by
  unfold ensureKeys
  rw [wp_bind]
  refine wp_ensureEph hs hp (fun t hst hf => ?_) hE
  exact wp_ensureKem hst (hp.flows hf) (fun u hsu hfu => hQ u hsu (hf.trans hfu))
    fun u hsu hau => hE u hsu (hau.trans hf.authed)

/-! ### The dialer -/

theorem AwaitsMsg2.after {c : Call} {a : Option Bytes} {s t : Link} {h : Hello}
    (w : AwaitsMsg2 s h) (ht : After c a s t) (hc : noSeal c = true) : AwaitsMsg2 t h :=
  have hf := Flows.of_after ht hc
  ⟨by rw [hf.spec]; exact w.made.longer hf.marks, hf.th.trans w.th, hf.root.trans w.root,
    fun p hp => w.eph p (ht.moves.myEph.of_some hp),
    fun p hp => w.kem p (ht.moves.myKem.of_some hp), hf.noSession w.new, hf.onlySeals w.seals⟩

theorem wp_sendMsg1 {s : Link} {Q : Unit → Link → Prop} {E : Link → Prop} (hs : Safe s)
    (hd : s.spec.weDialed = true) (hnew : NoSession s.marks) (hseals : OnlySeals [] s.marks)
    (hQ : ∀ t h, Safe t → t.authed = s.authed → t.spec = s.spec → AwaitsMsg2 t h → Q () t)
    (hE : ∀ t, Safe t → t.authed = s.authed → E t) : sendMsg1.wp terms Q E s := by
  have hclear := cleared_of_dialed hd
  unfold sendMsg1
  rw [wp_bind, wp_get, wp_bind, wp_need]
  refine ⟨fun myEph hmyEph => ?_, fun _ => hE s hs rfl⟩
  rw [wp_bind, wp_need]
  refine ⟨fun myKem hmyKem => ?_, fun _ => hE s hs rfl⟩
  simp only [probeContext]
  rw [wp_bind, wp_bind, wp_get, wp_bind, wp_need]
  refine ⟨fun root hroot => ?_, fun _ => hE s hs rfl⟩
  refine wp_hash hs (fun ctx t1 h1 hs1 hf1 => ?_) hE
  simp only [probeKey]
  rw [wp_bind]
  refine wp_kdf hs1 (fun parts secret c key t2 hparts hsecret hc h2 hs2 hf2 => ?_)
    fun t hst hta => hE t hst (hta.trans hf1.authed)
  obtain rfl : parts = [] := by simpa using hparts.symm
  obtain rfl : ctx = c := by simpa using hc
  have hf12 := hf1.trans hf2
  rw [wp_bind]
  refine wp_sealZero LABEL_PROBE hs2 (hclear.flows hf12) (by simp [handshakeLabels])
    ⟨_, h2.answers⟩ (fun k n p hm => ?_) (fun tag t3 h3 hs3 => ?_)
    fun t hst hta => hE t hst (hta.trans hf12.authed)
  · obtain ⟨label, hl, -⟩ := hf12.onlySeals hseals k n p hm
    simp at hl
  have hr3 : t3.root = some root := h3.root.trans (hf12.root.trans hroot)
  rw [wp_bind, wp_get, wp_bind, wp_need]
  refine ⟨fun root' hroot' => ?_, fun hnone => ?_⟩
  swap
  · rw [hr3] at hnone
    simp at hnone
  obtain rfl : root = root' := Option.some.inj (hr3.symm.trans hroot')
  rw [wp_bind]
  refine wp_hash hs3 (fun th t4 h4 hs4 hf4 => ?_)
    fun t hst hta => hE t hst (hta.trans (h3.authed.trans hf12.authed))
  rw [wp_bind, wp_modify]
  have hspec4 : t4.spec = s.spec := hf4.spec.trans (h3.spec.trans hf12.spec)
  have hauthed4 : t4.authed = s.authed := hf4.authed.trans (h3.authed.trans hf12.authed)
  have hsub34 : t3.marks ⊆ t4.marks := hf4.marks
  have hsub24 : t2.marks ⊆ t4.marks := List.Subset.trans h3.subset hsub34
  have hsub14 : t1.marks ⊆ t4.marks := List.Subset.trans hf2.marks hsub24
  have hsub4 : s.marks ⊆ t4.marks := List.Subset.trans hf1.marks hsub14
  obtain ⟨seed, kem, hkem, hkemlen, hkemeq⟩ := hs.kem myKem hmyKem
  let hello : Hello :=
    { root, sk := myEph.privateKey, pub := myEph.publicKey, seed, kem, secret, ctx, key, tag, th }
  have hmade : hello.Made t4.spec t4.marks := by
    rw [hspec4]
    refine ⟨(hs.root root hroot).longer hsub4, (hs.eph myEph hmyEph).longer hsub4,
      hkem.longer hsub4, hkemlen, ?_, ?_, ?_, h3.answers.longer hsub34, ?_⟩
    · rw [← hs.secret hd, ← hf1.secret]
      exact hsecret
    · have := h1.answers.longer hsub14
      rw [hkemeq] at this
      exact this
    · exact h2.answers.longer hsub24
    · have := h4.answers
      rw [hkemeq] at this
      exact this
  have hwait : AwaitsMsg2 { t4 with th := some th } hello := by
    refine ⟨hmade, rfl, hf4.root.trans hr3, ?_, ?_, ?_, ?_⟩
    · intro p hp
      have h := h1.moves.myEph.of_some (h2.moves.myEph.of_some
        (h3.moves.myEph.of_some (h4.moves.myEph.of_some hp)))
      rw [hmyEph] at h
      cases h
      rfl
    · intro p hp
      have h := h1.moves.myKem.of_some (h2.moves.myKem.of_some
        (h3.moves.myKem.of_some (h4.moves.myKem.of_some hp)))
      rw [hmyKem, hkemeq] at h
      cases h
      rfl
    · have h2' := hf12.noSession hnew
      refine hf4.noSession fun p t a b hm => ?_
      rw [h3.marks] at hm
      exact h2' p t a b (by simpa using hm)
    · have h2' := hf12.onlySeals hseals
      refine hf4.onlySeals fun k n p hm => ?_
      rw [h3.marks] at hm
      simp only [List.mem_append, List.mem_cons, List.not_mem_nil, or_false, Mark.asked.injEq,
        reduceCtorEq, Call.aeadSeal.injEq] at hm
      rcases hm with hm | ⟨rfl, -, -⟩
      · obtain ⟨label, hl, -⟩ := h2' k n p hm
        simp at hl
      · exact ⟨LABEL_PROBE, by simp, Keyed.longer h3.subset ⟨_, h2.answers⟩⟩
  have hd4 : t4.spec.weDialed = true := by rw [hspec4, hd]
  refine wp_wire (hs4.of_view rfl)
    ((cleared_of_dialed (l := { t4 with th := some th }) hd4).paid _) ?_ ?_ ?_
  · intro _
    refine .inl ⟨hello, hmade, ?_⟩
    simp [hello, Hello.w1, Hello.kemPk, Hello.eph, hkemeq]
  · intro b t5 h5 hs5
    exact hQ t5 hello hs5 (h5.authed.trans hauthed4) (h5.spec.trans hspec4) (hwait.after h5 rfl)
  · intro t5 h5 hs5
    exact hE t5 hs5 (h5.authed.trans hauthed4)

/-- Once the dialed key is checked: msg3, the session and authentication. -/
theorem wp_answerMsg2 {s : Link} {c : Check} (hs : Safe s) (ha : s.authed = false)
    (hd : s.spec.weDialed = true) (w : AwaitsMsg2 s c.toHello)
    (hc : c.Passed s.spec s.node.ownPk s.marks) (hee : ∀ x, s.ee = some x → x = c.ee)
    (hss : ∀ x, s.kemSecret = some x → x = c.ss) (hpeer : s.peerId = s.spec.dialedPeerId) :
    (answerMsg2 c.w2).wp terms (fun _ => Rest) (fun t => Rest t.refuse) s := by
  have thrown : ∀ t : Link, Safe t → t.authed = s.authed → Rest t.refuse := fun t hst hta =>
    .of_refuse hst (hst.unauthed_ctr (hta.trans ha))
  have hsecret : s.contactSecret = some c.secret := (hs.secret hd).trans hc.hello.secret
  unfold answerMsg2
  rw [wp_bind, wp_get, wp_bind, wp_need]
  refine ⟨fun th hth => ?_, fun _ => thrown s hs rfl⟩
  obtain rfl : c.th = th := Option.some.inj (w.th.symm.trans hth)
  rw [wp_bind]
  refine wp_hash hs (fun h2 t1 h1 hs1 hf1 => ?_) thrown
  rw [wp_bind]
  refine wp_signTranscript hs1 (cleared_of_dialed (by rw [hf1.spec, hd])) (fun root hroot => ?_)
    (fun root sig t2 hroot h2' hs2 hf2 => ?_) fun t hst _ => .of_abort false hst
  · obtain rfl : c.root = root := Option.some.inj ((hf1.root.trans w.root).symm.trans hroot)
    rw [hf1.spec, hf1.node]
    exact .inr (.inr ⟨hd, c, h2, hc.longer hf1.marks, h1.answers, rfl⟩)
  obtain rfl : c.root = root := Option.some.inj ((hf1.root.trans w.root).symm.trans hroot)
  have hf12 := hf1.trans hf2
  simp only
  rw [wp_bind, wp_get, wp_bind]
  refine wp_kdf_pair hs2 (fun x y sec ctx key3 t3 hx hy hsec hctx h3 hs3 hf3 => ?_)
    fun t hst hta => thrown t hst (hta.trans hf12.authed)
  obtain rfl := (hee x (hf12.ee.of_some hx)).symm
  obtain rfl := (hss y (hf12.ss.of_some hy)).symm
  obtain rfl : c.secret = sec := Option.some.inj ((hf12.secret.trans hsecret).symm.trans hsec)
  obtain rfl : h2 = ctx := Option.some.inj hctx
  have hf13 := hf12.trans hf3
  rw [wp_bind]
  refine wp_sealZero LABEL_M3 hs3 (cleared_of_dialed (by rw [hf13.spec, hd]))
    (by simp [handshakeLabels]) ⟨_, h3.answers⟩ (fun k n p hm => ?_) (fun w3 t4 h4 hs4 => ?_)
    fun t hst hta => thrown t hst (hta.trans hf13.authed)
  · obtain ⟨label, hl, hk⟩ := hf13.onlySeals w.seals k n p hm
    obtain rfl := List.mem_singleton.1 hl
    exact ⟨LABEL_PROBE, by simp [handshakeLabels], by decide, hk⟩
  have hauthed4 : t4.authed = s.authed := h4.authed.trans hf13.authed
  rw [wp_bind]
  refine wp_hash hs4 (fun fin t5 h5 hs5 hf5 => ?_) fun t hst hta => thrown t hst (hta.trans hauthed4)
  have hspec5 : t5.spec = s.spec := hf5.spec.trans (h4.spec.trans hf13.spec)
  have hnode5 : t5.node = s.node := hf5.node.trans (h4.node.trans hf13.node)
  have hauthed5 : t5.authed = false := hf5.authed.trans (hauthed4.trans ha)
  have hpeer5 : t5.peerId = t5.spec.dialedPeerId := by
    rw [hspec5, ← hpeer, hf5.peerId, h4.peerId, hf13.peerId]
  have hsecret5 : t5.contactSecret = some c.secret := by
    rw [hf5.secret, h4.contactSecret, hf13.secret, hsecret]
  have hsub45 : t4.marks ⊆ t5.marks := hf5.marks
  have hsub35 : t3.marks ⊆ t5.marks := List.Subset.trans h4.subset hsub45
  have hsub25 : t2.marks ⊆ t5.marks := List.Subset.trans hf3.marks hsub35
  have hsub15 : t1.marks ⊆ t5.marks := List.Subset.trans hf2.marks hsub25
  have hsub5 : s.marks ⊆ t5.marks := List.Subset.trans hf1.marks hsub15
  have hnew : NoSession t5.marks := by
    have h3' := hf13.noSession w.new
    refine hf5.noSession fun p t a b hm => ?_
    rw [h4.marks] at hm
    exact h3' p t a b (by simpa using hm)
  rw [wp_bind, wp_modify, wp_bind, wp_attempt, wp_bind]
  refine wp_derive (s := { t5 with th := some fin }) c.ee c.ss c.secret fin (hs5.of_view rfl)
    hauthed5 rfl hsecret5 ?_ ?_ hnew ?_ ?_ ?_
  · intro x hx
    exact hee x (hf13.ee.of_some (h4.moves.ee.of_some (hf5.ee.of_some hx)))
  · intro x hx
    exact hss x (hf13.ss.of_some (h4.moves.kemSecret.of_some (hf5.ss.of_some hx)))
  · intro log i2r r2i hlog hi hr
    have hd5 : t5.spec.weDialed = true := by rw [hspec5, hd]
    refine .inl ⟨hd5, { c with h2, sig3 := sig, key3, w3, fin, i2r, r2i }, ?_, hpeer5, rfl, ?_, ?_⟩
    · simp only [hspec5, hnode5]
      refine ⟨hc.longer (List.Subset.trans hsub5 hlog), ?_, ?_, ?_, ?_, ?_, hi, hr⟩
      · exact h1.answers.longer (List.Subset.trans hsub15 hlog)
      · have := h2'.answers.longer (List.Subset.trans hsub25 hlog)
        rw [hf1.node] at this
        exact this
      · exact h3.answers.longer (List.Subset.trans hsub35 hlog)
      · have := h4.answers.longer (List.Subset.trans hsub45 hlog)
        rw [hf12.node] at this
        exact this
      · exact h5.answers.longer hlog
    · simp [hd5]
    · simp [hd5]
  · intro t ks kr hst hta hspec hnode hsub hmem hks hkr
    rw [wp_pure, wp_ite]
    refine ⟨fun _ => ?_, fun h => by simp at h⟩
    have hd' : t.spec.weDialed = true := by rw [hspec, hspec5, hd]
    rw [wp_bind]
    refine wp_wire hst ((cleared_of_dialed hd').paid _) ?_ (fun b u hu hsu => ?_) fun u hu hsu => ?_
    · intro _
      refine .inr ⟨c, ?_⟩
      rw [hspec, hspec5, hnode, hnode5]
      exact hc.longer (List.Subset.trans hsub5 hsub)
    · have hfu := Flows.of_after hu rfl
      have hmem' : Mark.session u.peerId (some fin) ks kr ∈ u.marks := by
        rw [hu.peerId]
        exact hu.subset hmem
      exact wp_becomeAuthed hsu (hu.authed.trans hta) hmem'
        (fun k hk => hks k (hu.moves.sendKey.of_some hk))
        (fun k hk => hkr k (hu.moves.recvKey.of_some hk)) fun v hsv hfv => .of_refuse hsv hfv
    · exact .of_refuse hsu (hsu.unauthed_ctr (hu.authed.trans hta))
  · intro t hst hta
    rw [wp_bind, wp_modify, wp_pure, wp_ite]
    exact ⟨fun h => by simp at h, fun _ => .of_abort false hst⟩

theorem wp_onMsg2 {s : Link} {h : Hello} (w2 : Bytes) (hs : Safe s) (ha : s.authed = false)
    (hd : s.spec.weDialed = true) (w : AwaitsMsg2 s h) :
    (onMsg2 w2).wp terms (fun _ => Rest) (fun t => Rest t.refuse) s := by
  have thrown : ∀ t : Link, Safe t → t.authed = s.authed → Rest t.refuse := fun t hst hta =>
    .of_refuse hst (hst.unauthed_ctr (hta.trans ha))
  have stalled : ∀ t : Link, Safe t → t.authed = s.authed → Rest t.stall := fun t hst hta =>
    .of_stall hst (hst.unauthed_ctr (hta.trans ha))
  unfold onMsg2
  rw [wp_ite]
  refine ⟨fun _ => stalled s hs rfl, fun hwidth => ?_⟩
  rw [wp_bind, wp_get, wp_bind, wp_need]
  refine ⟨fun myEph hmyEph => ?_, fun _ => thrown s hs rfl⟩
  simp only [scalarmult]
  rw [wp_bind, wp_bind]
  refine wp_step hs rfl ((cleared_of_dialed hd).paid _) (fun b t1 h1 hs1 hf1 => ?_) thrown
  rw [wp_pure, w.eph myEph hmyEph] at *
  cases hb : okTail b with
  | none => exact stalled t1 hs1 hf1.authed
  | some x =>
    obtain rfl := okTail_some hb
    simp only
    rw [wp_bind, wp_modify, wp_bind, wp_get, wp_bind, wp_need]
    have w1 : AwaitsMsg2 { t1 with ee := some x } h :=
      have w' := w.after h1 rfl
      ⟨w'.made, w'.th, w'.root, w'.eph, w'.kem, w'.new, w'.seals⟩
    have hs1' : Safe { t1 with ee := some x } := hs1.of_view rfl
    refine ⟨fun myKem hmyKem => ?_, fun _ => thrown _ hs1' hf1.authed⟩
    simp only [kemDecaps]
    rw [wp_bind, wp_bind]
    have hd1 : t1.spec.weDialed = true := by rw [hf1.spec, hd]
    refine wp_step hs1' rfl ((cleared_of_dialed (l := { t1 with ee := some x }) hd1).paid _)
      (fun b2 t2 h2 hs2 hf2 => ?_) fun t hst hta => thrown t hst (hta.trans hf1.authed)
    rw [wp_pure]
    have hauthed2 : t2.authed = s.authed := hf2.authed.trans hf1.authed
    cases hb2 : okTail b2 with
    | none => exact stalled t2 hs2 hauthed2
    | some ss =>
      obtain rfl := okTail_some hb2
      simp only
      by_cases hlen : ss.length = KEM_SS_LEN
      swap
      · rw [if_neg hlen]
        exact stalled t2 hs2 hauthed2
      rw [if_pos hlen]
      simp only
      rw [wp_bind, wp_modify, wp_bind, wp_get, wp_bind, wp_need]
      have w2' : AwaitsMsg2 { t2 with kemSecret := some ss } h :=
        have w' := w1.after h2 rfl
        ⟨w'.made, w'.th, w'.root, w'.eph, w'.kem, w'.new, w'.seals⟩
      have hs2' : Safe { t2 with kemSecret := some ss } := hs2.of_view rfl
      refine ⟨fun th hth => ?_, fun _ => thrown _ hs2' hauthed2⟩
      obtain rfl : h.th = th := Option.some.inj (w2'.th.symm.trans hth)
      rw [wp_bind]
      refine wp_hash hs2' (fun hs3 t3 h3 hst3 hf3 => ?_)
        fun t hst hta => thrown t hst (hta.trans hauthed2)
      have hauthed3 : t3.authed = s.authed := hf3.authed.trans hauthed2
      rw [wp_bind, wp_get, wp_bind]
      refine wp_kdf_pair hst3 (fun x' y' sec ctx key2 t4 hx hy hsec hctx h4 hs4 hf4 => ?_)
        fun t hst hta => thrown t hst (hta.trans hauthed3)
      obtain rfl : hs3 = ctx := Option.some.inj hctx
      obtain rfl : x = x' :=
        Option.some.inj (hf2.ee.of_some (hf3.ee.of_some hx) : some x = some x')
      obtain rfl : ss = y' := Option.some.inj (hf3.ss.of_some hy : some ss = some y')
      have hauthed4 : t4.authed = s.authed := hf4.authed.trans hauthed3
      simp only [openZero]
      rw [wp_bind]
      have w3' := w2'.after h3 rfl
      have w4 := w3'.after h4 rfl
      refine wp_aeadDec hs4 (fun sig t5 h5 hs5 hf5 he5 hk5 => ?_)
        (fun t hst hf => stalled t hst (hf.authed.trans hauthed4))
        fun t hst hta => thrown t hst (hta.trans hauthed4)
      have hauthed5 : t5.authed = s.authed := hf5.authed.trans hauthed4
      have w5 : AwaitsMsg2 t5 h :=
        ⟨by rw [hf5.spec]; exact w4.made.longer hf5.marks, hf5.th.trans w4.th,
          hf5.root.trans w4.root, fun p hp => w4.eph p (he5 p hp),
          fun p hp => w4.kem p (hk5 p hp), hf5.noSession w4.new, hf5.onlySeals w4.seals⟩
      have hspec5 : t5.spec = s.spec :=
        hf5.spec.trans (hf4.spec.trans (hf3.spec.trans (hf2.spec.trans hf1.spec)))
      have hsecret : sec = h.secret := by
        have h6 : t3.spec.weDialed = true := by
          rw [hf3.spec]
          exact (congrArg Spec.weDialed hf2.spec).trans hd1
        have h7 := hst3.secret h6
        rw [w3'.made.secret] at h7
        exact Option.some.inj (hsec.symm.trans h7)
      subst hsecret
      simp only
      rw [wp_bind, wp_get, wp_ite]
      refine ⟨fun _ => .of_abort false hs5, fun hother => ?_⟩
      rw [wp_bind, wp_need]
      refine ⟨fun root hroot => ?_, fun _ => thrown t5 hs5 hauthed5⟩
      obtain rfl : h.root = root := Option.some.inj (w5.root.symm.trans hroot)
      simp only [verify]
      rw [wp_bind, wp_bind]
      refine wp_step hs5 rfl (by simp [Paid, Call.costly]) (fun r t6 h6 hs6 hf6 => ?_)
        fun t hst hta => thrown t hst (hta.trans hauthed5)
      rw [wp_pure, wp_ite]
      refine ⟨fun _ => .of_abort true hs6, fun hgood => ?_⟩
      rw [wp_ite]
      refine ⟨fun _ => .of_abort true hs6, fun _ => ?_⟩
      have hverified : ∃ r', r = 1 :: r' := by
        cases r with
        | nil => simp at hgood
        | cons b r' =>
          simp at hgood
          exact ⟨r', by rw [hgood]⟩
      obtain ⟨r', rfl⟩ := hverified
      rw [wp_bind, wp_modify]
      have w6 := w5.after h6 rfl
      let c : Check := { h with w2, ee := x, ss, hs := hs3, key2, sig }
      have hsub56 : t5.marks ⊆ t6.marks := hf6.marks
      have hsub46 : t4.marks ⊆ t6.marks := List.Subset.trans hf5.marks hsub56
      have hsub36 : t3.marks ⊆ t6.marks := List.Subset.trans hf4.marks hsub46
      have hsub26 : t2.marks ⊆ t6.marks := List.Subset.trans hf3.marks hsub36
      have hsub16 : t1.marks ⊆ t6.marks := List.Subset.trans hf2.marks hsub26
      have hpassed : c.Passed t6.spec t6.node.ownPk t6.marks := by
        refine ⟨w6.made, by simpa using hwidth, h1.answers.longer hsub16, ?_, hlen,
          h3.answers.longer hsub36, h4.answers.longer hsub46, h5.longer hsub56, ⟨r', ?_⟩, ?_⟩
        · have := h2.answers.longer hsub26
          rw [w1.kem myKem hmyKem] at this
          exact this
        · rw [hf6.spec]
          exact h6.answers
        · rw [hf6.spec, hf6.node]
          exact hother
      have hd6 : t6.spec.weDialed = true := by rw [hf6.spec, hspec5, hd]
      have hpeer6 : t5.spec.dialedPeerId = t6.spec.dialedPeerId := by rw [hf6.spec]
      refine wp_answerMsg2 (c := c) (hs6.setPeer (hf6.authed.trans (hauthed5.trans ha)) _ _)
        (hf6.authed.trans (hauthed5.trans ha)) hd6
        ⟨w6.made, w6.th, w6.root, w6.eph, w6.kem, w6.new, w6.seals⟩ hpassed ?_ ?_ hpeer6
      · intro y hy
        exact (Option.some.inj (hf2.ee.of_some (hf3.ee.of_some
          (hf4.ee.of_some (hf5.ee.of_some (hf6.ee.of_some hy)))) : some x = some y)).symm
      · intro y hy
        exact (Option.some.inj (hf3.ss.of_some
          (hf4.ss.of_some (hf5.ss.of_some (hf6.ss.of_some hy))) : some ss = some y)).symm

theorem wp_boot {s : Link} (hs : Safe s) (ha : s.authed = false) (hfirst : s.peerEph = none)
    (hnew : NoSession s.marks) (hseals : OnlySeals [] s.marks) :
    boot.wp terms (fun _ => Rest) Rest s := by
  unfold boot rootKey
  rw [wp_attempt, wp_bind, wp_get, wp_bind]
  refine wp_hash hs (fun root t1 h1 hs1 hf1 => ?_) fun t hst _ => .of_abort false hst
  rw [wp_bind, wp_modify, wp_bind, wp_get, wp_ite]
  have hs1' : Safe { t1 with root := some root } := by
    refine hs1.setRoot ?_
    rw [hf1.spec]
    exact h1.answers
  have ha1 : t1.authed = false := hf1.authed.trans ha
  have hrekey := hs.loads.1
  refine ⟨fun hd => ?_, fun hd => ?_⟩
  · rw [wp_bind]
    refine wp_ensureKeys hs1' (cleared_of_dialed hd) (fun t2 hs2 hf2 => ?_)
      fun t hst _ => .of_abort false hst
    rw [wp_bind, wp_modify]
    have hd2 : t2.spec.weDialed = true := by rw [hf2.spec]; exact hd
    refine wp_sendMsg1 (hs2.of_view rfl) hd2 (hf2.noSession (hf1.noSession hnew))
      (hf2.onlySeals (hf1.onlySeals hseals)) (fun t h hst hta hts w => ?_)
      fun t hst _ => .of_abort false hst
    have hta' : t.authed = false := hta.trans (hf2.authed.trans ha1)
    exact ⟨hst, .inr (.inr (.msg2 hta' (by rw [hts]; exact hd2) h w)), hst.unauthed_ctr hta'⟩
  · rw [wp_modify]
    have hs2 : Safe (armDeadline t1.node.unverifiedTimeoutMs { t1 with root := some root }) :=
      hs1'.of_view rfl
    have hd' : t1.spec.weDialed = false := by simpa using hd
    exact ⟨hs2, .inr (.inr (.msg1 ha1 hd' (hf1.peerEph.trans hfirst) (hf1.noSession hnew)
      (hf1.onlySeals hseals))), hs2.unauthed_ctr ha1⟩

/-! ### The acceptor -/

theorem Flows.realm {s t : Link} (h : Flows s t) (r : Realm) : Flows s { t with realm := r } :=
  ⟨h.spec, h.node, h.root, h.secret, h.peerId, h.authed, h.peerEph, h.th, h.ee, h.ss, h.marks,
    h.seals, h.sessions⟩

theorem wp_keySecret {Q : Bytes → Link → Prop} {E : Link → Prop} {s : Link} (hs : Safe s)
    (hQ : ∀ b t, Safe t → Flows s t → Q b t) (hE : ∀ t, Safe t → t.authed = s.authed → E t) :
    keySecret.wp terms Q E s := by
  unfold keySecret
  rw [wp_bind, wp_get]
  cases hk : s.realm.ownKeySecret with
  | known secret =>
    simp only
    rw [wp_bind]
    exact wp_wait hs fun t hst hf => hQ secret t hst hf
  | asked =>
    exact wp_step hs rfl (by simp [Paid, Call.costly]) (fun b t _ hst hf => hQ b t hst hf) hE
  | absent =>
    simp only
    rw [wp_bind, wp_modify, wp_attempt, wp_bind]
    have hs1 : Safe (setOwnKeySecret .asked s) := hs.of_view rfl
    refine wp_sign hs1 (by simp [Paid, Call.costly]) (.inl rfl) (fun sig t ht hst => ?_)
      fun t ht hst => ?_
    · have hf0 : Flows s t := ((Flows.refl s).realm _).trans (.of_after ht rfl)
      rw [wp_bind]
      refine wp_hash hst (fun secret u _ hsu hfu => ?_) fun u hsu hua => ?_
      · rw [wp_bind, wp_modify, wp_pure]
        exact hQ secret _ (hsu.of_view rfl) ((hf0.trans hfu).realm _)
      · rw [wp_bind, wp_modify, wp_fail]
        exact hE _ (hsu.of_view rfl) (hua.trans hf0.authed)
    · rw [wp_bind, wp_modify, wp_fail]
      exact hE _ (hst.of_view rfl) ht.authed

theorem wp_acceptSecrets {Q : List Bytes → Link → Prop} {E : Link → Prop} {s : Link} (hs : Safe s)
    (hQ : ∀ list t, Safe t → Flows s t → Q list t) (hE : ∀ t, Safe t → t.authed = s.authed → E t) :
    acceptSecrets.wp terms Q E s := by
  unfold acceptSecrets
  rw [wp_bind, wp_get]
  cases hsrc : s.spec.acceptSecrets with
  | own secrets =>
    simp only
    rw [wp_bind]
    exact wp_wait hs fun t hst hf => hQ secrets t hst hf
  | node =>
    simp only [ownSecret]
    rw [wp_bind, wp_bind, wp_get]
    cases hc : s.realm.contactSecret with
    | some secret =>
      simp only
      rw [wp_bind]
      refine wp_wait hs fun t hst hf => ?_
      rw [wp_pure, wp_bind, wp_get, wp_pure]
      exact hQ _ t hst hf
    | none =>
      refine wp_keySecret hs (fun b t hst hf => ?_) hE
      rw [wp_bind, wp_get, wp_pure]
      exact hQ _ t hst hf

theorem Safe.setSecret {l : Link} (h : Safe l) (hd : l.spec.weDialed = false) (x : Option Bytes) :
    Safe { l with contactSecret := x } :=
  ⟨{ h.toCore with
      queue := ⟨h.queue.bytes, h.queue.nonempty, h.queue.length⟩
      late := h.late
      secret := fun h => by simp [hd] at h }, h.recvHere, h.passed, h.nonempty⟩

/-- The probe opened under one of the secrets, which is now the link's, or under none. -/
theorem wp_tryProbe {ctx tag : Bytes} {list : List Bytes} {Q : Bool → Link → Prop}
    {E : Link → Prop} {s : Link} (hs : Safe s) (hd : s.spec.weDialed = false)
    (hyes : ∀ t secret key rest, secret ∈ list → Safe t →
      Flows s { t with contactSecret := s.contactSecret } → t.contactSecret = some secret →
      Answers t.marks (.hash (secret ++ ctx ++ LABEL_PROBE)) key →
      Answers t.marks (.aeadOpen key ZERO_NPUB tag) (1 :: rest) → Q true t)
    (hno : ∀ t, Safe t → t.authed = s.authed → Q false t)
    (hE : ∀ t, Safe t → t.authed = s.authed → E t) : (tryProbe ctx tag list).wp terms Q E s := by
  induction list generalizing s with
  | nil => exact hno s hs rfl
  | cons secret list ih =>
    unfold tryProbe
    rw [wp_bind, wp_modify]
    have hs1 := hs.setSecret hd (some secret)
    simp only [probeKey, openZero]
    rw [wp_bind]
    refine wp_kdf hs1 (fun parts sec c key t2 hparts hsec hc h2 hs2 hf2 => ?_) hE
    obtain rfl : parts = [] := by simpa using hparts.symm
    obtain rfl : secret = sec := Option.some.inj hsec
    obtain rfl : ctx = c := Option.some.inj hc
    rw [wp_bind]
    refine wp_aeadDec hs2 (fun rest t3 h3 hs3 hf3 _ _ => ?_) (fun t3 hs3 hf3 => ?_)
      fun t hst hta => hE t hst (hta.trans hf2.authed)
    · have hf := hf2.trans hf3
      exact hyes t3 secret key rest (by simp) hs3
        ⟨hf.spec, hf.node, hf.root, rfl, hf.peerId, hf.authed, hf.peerEph, hf.th, hf.ee, hf.ss,
          hf.marks, hf.seals, hf.sessions⟩ hf.secret (h2.answers.longer hf3.marks) h3
    · have hf := hf2.trans hf3
      refine ih hs3 (by rw [hf.spec]; exact hd) (fun t secret' key' rest hmem hst hft => ?_)
        (fun t hst hta => hno t hst (hta.trans hf.authed))
        fun t hst hta => hE t hst (hta.trans hf.authed)
      refine hyes t secret' key' rest (List.mem_cons_of_mem _ hmem) hst ?_
      have hf' := hf.trans hft
      exact ⟨hf'.spec, hf'.node, hf'.root, rfl, hf'.peerId, hf'.authed, hf'.peerEph, hf'.th, hf'.ee,
        hf'.ss, hf'.marks, hf'.seals, hf'.sessions⟩

/-- Once the probe is proved: the acceptor's msg2. -/
theorem wp_answerMsg1 {s : Link} {p : Probe} (hs : Safe s) (ha : s.authed = false)
    (hd : s.spec.weDialed = false) (hp : p.Proved s.spec s.marks) (hroot : s.root = some p.root)
    (hsecret : s.contactSecret = some p.secret) (hnew : NoSession s.marks)
    (hseals : OnlySeals [] s.marks) :
    (answerMsg1 p.w1 p.ephI p.kemPkI).wp terms (fun _ => Rest) (fun t => Rest t.refuse) s := by
  have thrown : ∀ t : Link, Safe t → t.authed = s.authed → Rest t.refuse := fun t hst hta =>
    .of_refuse hst (hst.unauthed_ctr (hta.trans ha))
  have stalled : ∀ t : Link, Safe t → t.authed = s.authed → Rest t.stall := fun t hst hta =>
    .of_stall hst (hst.unauthed_ctr (hta.trans ha))
  have hclear : Cleared s := fun _ => ⟨p, hp⟩
  unfold answerMsg1
  rw [wp_bind]
  refine wp_ensureKeys hs hclear (fun t1 hs1 hf1 => ?_) thrown
  rw [wp_bind, wp_get, wp_bind, wp_need]
  refine ⟨fun myEph hmyEph => ?_, fun _ => thrown t1 hs1 hf1.authed⟩
  simp only [scalarmult]
  rw [wp_bind, wp_bind]
  refine wp_step hs1 rfl ((hclear.flows hf1).paid _) (fun b t2 h2 hs2 hf2 => ?_)
    fun t hst hta => thrown t hst (hta.trans hf1.authed)
  have hf12 := hf1.trans hf2
  rw [wp_pure]
  cases hb : okTail b with
  | none => exact stalled t2 hs2 hf12.authed
  | some x =>
    obtain rfl := okTail_some hb
    simp only
    rw [wp_bind, wp_modify, wp_bind]
    have hs2' : Safe { t2 with ee := some x } := hs2.of_view rfl
    have hclear2 : Cleared { t2 with ee := some x } := hclear.longer hf12.spec hf12.marks
    refine wp_step hs2' rfl (hclear2.paid _) (fun coins t3 h3 hs3 hf3 => ?_)
      fun t hst hta => thrown t hst (hta.trans hf12.authed)
    simp only [kemEncaps]
    rw [wp_bind, wp_bind]
    refine wp_step hs3 rfl ((hclear2.flows hf3).paid _) (fun b4 t4 h4 hs4 hf4 => ?_)
      fun t hst hta => thrown t hst (hta.trans (hf3.authed.trans hf12.authed))
    have hauthed4 : t4.authed = s.authed := hf4.authed.trans (hf3.authed.trans hf12.authed)
    have hf34 := hf3.trans hf4
    rw [wp_pure]
    cases hb4 : okTail b4 with
    | none => exact stalled t4 hs4 hauthed4
    | some b =>
      obtain rfl := okTail_some hb4
      simp only
      by_cases hlen : b.length = KEM_CT_LEN + KEM_SS_LEN
      swap
      · rw [if_neg hlen]
        exact stalled t4 hs4 hauthed4
      rw [if_pos hlen]
      simp only
      generalize hct : b.take KEM_CT_LEN = ct
      generalize hss : b.drop KEM_CT_LEN = ss
      have hbsplit : b = ct ++ ss := by rw [← hct, ← hss, List.take_append_drop]
      have hctlen : ct.length = KEM_CT_LEN := by simp [← hct, hlen]
      have hsslen : ss.length = KEM_SS_LEN := by simp [← hss, hlen]
      rw [wp_bind, wp_modify, wp_bind, wp_get, wp_bind, wp_need]
      have hs4' : Safe { t4 with kemSecret := some ss, peerEph := some p.ephI } := hs4.of_view rfl
      have hroot4 : t4.root = some p.root := by rw [hf34.root]; exact hf12.root.trans hroot
      refine ⟨fun root hroot' => ?_, fun _ => thrown _ hs4' hauthed4⟩
      obtain rfl : p.root = root := Option.some.inj (hroot4.symm.trans hroot')
      rw [wp_bind]
      refine wp_hash hs4' (fun h1 t5 h5 hs5 hf5 => ?_)
        fun t hst hta => thrown t hst (hta.trans hauthed4)
      have hauthed5 : t5.authed = s.authed := hf5.authed.trans hauthed4
      rw [wp_bind, wp_get, wp_bind, wp_need]
      refine ⟨fun myEph' hmyEph' => ?_, fun _ => thrown t5 hs5 hauthed5⟩
      obtain rfl : myEph = myEph' := by
        have h := h2.moves.myEph.of_some (h3.moves.myEph.of_some
          (h4.moves.myEph.of_some (h5.moves.myEph.of_some hmyEph')))
        exact Option.some.inj (hmyEph.symm.trans h)
      rw [wp_bind]
      refine wp_hash hs5 (fun hs6 t6 h6 hst6 hf6 => ?_)
        fun t hst hta => thrown t hst (hta.trans hauthed5)
      have hauthed6 : t6.authed = s.authed := hf6.authed.trans hauthed5
      have hspec4 : t4.spec = s.spec := hf34.spec.trans hf12.spec
      have hnode4 : t4.node = s.node := hf34.node.trans hf12.node
      have hspec6 : t6.spec = s.spec := hf6.spec.trans (hf5.spec.trans hspec4)
      have hnode6 : t6.node = s.node := hf6.node.trans (hf5.node.trans hnode4)
      have hsub46 : t4.marks ⊆ t6.marks := List.Subset.trans hf5.marks hf6.marks
      have hsub26 : t2.marks ⊆ t6.marks := List.Subset.trans hf34.marks hsub46
      have hsub16 : t1.marks ⊆ t6.marks := List.Subset.trans hf2.marks hsub26
      have hsub6 : s.marks ⊆ t6.marks := List.Subset.trans hf1.marks hsub16
      have hclear6 : Cleared t6 := hclear.longer hspec6 hsub6
      rw [wp_bind]
      have hroot6 : t6.root = some p.root := by
        rw [hf6.root, hf5.root]
        exact hroot4
      refine wp_signTranscript hst6 hclear6 (fun root hroot7 => ?_) (fun root sig t7 hroot7 h7 hs7 hf7 => ?_)
        fun t hst _ => .of_abort false hst
      · obtain rfl : p.root = root := Option.some.inj (hroot6.symm.trans hroot7)
        rw [hspec6, hnode6]
        have hkem := h4.answers.longer hsub46
        rw [hbsplit] at hkem
        exact .inr (.inl ⟨hd, ⟨p, myEph.privateKey, myEph.publicKey, ct, h1, hs6⟩,
          ⟨hp.longer hsub6, (hs1.eph myEph hmyEph).longer hsub16, ⟨coins, ss, hkem⟩, hctlen,
            h5.answers.longer hf6.marks, h6.answers⟩, rfl⟩)
      obtain rfl : p.root = root := Option.some.inj (hroot6.symm.trans hroot7)
      simp only
      rw [wp_bind, wp_get, wp_bind]
      have hauthed7 : t7.authed = s.authed := hf7.authed.trans hauthed6
      refine wp_kdf_pair hs7 (fun x' y' sec ctx key2 t8 hx hy hsec hctx h8 hs8 hf8 => ?_)
        fun t hst hta => thrown t hst (hta.trans hauthed7)
      obtain rfl : hs6 = ctx := Option.some.inj hctx
      obtain rfl : x = x' := Option.some.inj (hf34.ee.of_some
        (hf5.ee.of_some (hf6.ee.of_some (hf7.ee.of_some hx))) : some x = some x')
      obtain rfl : ss = y' := Option.some.inj
        (hf5.ss.of_some (hf6.ss.of_some (hf7.ss.of_some hy)) : some ss = some y')
      obtain rfl : p.secret = sec := by
        have h : t7.contactSecret = some p.secret := by
          rw [hf7.secret, hf6.secret, hf5.secret]
          exact hf34.secret.trans (hf12.secret.trans hsecret)
        exact Option.some.inj (h.symm.trans hsec)
      have hauthed8 : t8.authed = s.authed := hf8.authed.trans hauthed7
      have hf78 := hf7.trans hf8
      have hseals8 : OnlySeals [] t8.marks := by
        refine hf78.onlySeals (hf6.onlySeals (hf5.onlySeals ?_))
        exact hf34.onlySeals (hf12.onlySeals hseals)
      have hnew8 : NoSession t8.marks := by
        refine hf78.noSession (hf6.noSession (hf5.noSession ?_))
        exact hf34.noSession (hf12.noSession hnew)
      have hspec8 : t8.spec = s.spec := hf78.spec.trans hspec6
      have hnode8 : t8.node = s.node := hf78.node.trans hnode6
      have hsub68 : t6.marks ⊆ t8.marks := hf78.marks
      rw [wp_bind]
      refine wp_sealZero LABEL_M2 hs8 (hclear6.flows hf78) (by simp [handshakeLabels])
        ⟨_, h8.answers⟩ (fun k n q hm => ?_) (fun tail t9 h9 hs9 => ?_)
        fun t hst hta => thrown t hst (hta.trans hauthed8)
      · obtain ⟨label, hl, -⟩ := hseals8 k n q hm
        simp at hl
      have hauthed9 : t9.authed = s.authed := h9.authed.trans hauthed8
      rw [wp_bind]
      refine wp_hash hs9 (fun th t10 h10 hs10 hf10 => ?_)
        fun t hst hta => thrown t hst (hta.trans hauthed9)
      have hauthed10 : t10.authed = false := hf10.authed.trans (hauthed9.trans ha)
      have hspec10 : t10.spec = s.spec := hf10.spec.trans (h9.spec.trans hspec8)
      have hnode10 : t10.node = s.node := hf10.node.trans (h9.node.trans hnode8)
      have hsub910 : t9.marks ⊆ t10.marks := hf10.marks
      have hsub810 : t8.marks ⊆ t10.marks := List.Subset.trans h9.subset hsub910
      have hsub710 : t7.marks ⊆ t10.marks := List.Subset.trans hf8.marks hsub810
      have hsub610 : t6.marks ⊆ t10.marks := List.Subset.trans hf7.marks hsub710
      have hsub510 : t5.marks ⊆ t10.marks := List.Subset.trans hf6.marks hsub610
      have hsub410 : t4.marks ⊆ t10.marks := List.Subset.trans hf5.marks hsub510
      have hsub210 : t2.marks ⊆ t10.marks := List.Subset.trans hf34.marks hsub410
      have hsub110 : t1.marks ⊆ t10.marks := List.Subset.trans hf2.marks hsub210
      have hsub10 : s.marks ⊆ t10.marks := List.Subset.trans hf1.marks hsub110
      let r : Reply :=
        { p with sk := myEph.privateKey, pub := myEph.publicKey, ee := x, coins, ct, ss, h1,
                 hs := hs6, sig, key2, tail, th }
      have hmade : r.Made t10.spec t10.node.ownPk t10.marks := by
        rw [hspec10, hnode10]
        refine ⟨hp.longer hsub10, (hs1.eph myEph hmyEph).longer hsub110,
          h2.answers.longer hsub210, ?_, hctlen, hsslen, h5.answers.longer hsub510,
          h6.answers.longer hsub610, ?_, h8.answers.longer hsub810, h9.answers.longer hsub910,
          h10.answers⟩
        · have := h4.answers.longer hsub410
          rw [hbsplit] at this
          exact this
        · have := h7.answers.longer hsub710
          rw [hnode6] at this
          exact this
      rw [wp_bind, wp_modify]
      have hclear10 : Cleared { t10 with th := some th } := hclear.longer hspec10 hsub10
      have hd10 : t10.spec.weDialed = false := by rw [hspec10, hd]
      refine wp_wire (hs10.of_view rfl) (hclear10.paid _) ?_ (fun b11 t11 h11 hs11 => ?_)
        fun t11 h11 hs11 => ?_
      · intro h
        simp [hd10] at h
      · have hf11 := Flows.of_after h11 rfl
        have ha11 : t11.authed = false := hf11.authed.trans hauthed10
        refine ⟨hs11, .inr (.inr (.msg3 ha11 ?_ ?_ r ?_)), hs11.unauthed_ctr ha11⟩
        · rw [hf11.spec]
          exact hd10
        · rw [hf11.peerEph]
          simp [hf10.peerEph, h9.peerEph, hf78.peerEph, hf6.peerEph, hf5.peerEph]
        · refine ⟨?_, hf11.th, ?_, ?_, ?_, ?_, ?_⟩
          · rw [hf11.spec, hf11.node]
            exact hmade.longer hf11.marks
          · rw [hf11.root]
            simp only [hf10.root, h9.root, hf78.root, hf6.root, hf5.root]
            exact hroot4
          · rw [hf11.secret]
            simp only [hf10.secret, h9.contactSecret, hf8.secret]
            exact hsec
          · intro y hy
            have h := hf34.ee.of_some (hf5.ee.of_some (hf6.ee.of_some (hf78.ee.of_some
              (h9.moves.ee.of_some (hf10.ee.of_some (hf11.ee.of_some hy))))))
            exact (Option.some.inj (h : some x = some y)).symm
          · intro y hy
            have h := hf5.ss.of_some (hf6.ss.of_some (hf78.ss.of_some
              (h9.moves.kemSecret.of_some (hf10.ss.of_some (hf11.ss.of_some hy)))))
            exact (Option.some.inj (h : some ss = some y)).symm
          · refine hf11.noSession (hf10.noSession fun q t a b hm => ?_)
            rw [h9.marks] at hm
            exact hnew8 q t a b (by simpa using hm)
      · exact .of_refuse hs11 (hs11.unauthed_ctr (h11.authed.trans hauthed10))

/-- A mark that is no call, no record and no session only lengthens the log. -/
theorem Safe.note {l : Link} {m : Mark} (h : Safe l) (hlaw : Law l.spec l.node.ownPk l.marks m)
    (hp : sealedOf m = none ∧ acceptedOf m = none ∧ frameOf m = none)
    (hm : ∀ c a, m ≠ .done c a) : Safe (l.mark m) :=
  h.mark hlaw (by simp [hp.1]) hp.2 fun _ _ _ _ he => absurd he (hm _ _)

theorem Flows.note {s t : Link} {m : Mark} (h : Flows s t) (hm : ∀ c, m ≠ .asked c)
    (hs : ∀ p th a b, m ≠ .session p th a b) : Flows s (t.mark m) where
  spec := h.spec
  node := h.node
  root := h.root
  secret := h.secret
  peerId := h.peerId
  authed := h.authed
  peerEph := h.peerEph
  th := h.th
  ee := h.ee
  ss := h.ss
  marks := List.Subset.trans h.marks (by simp [Link.mark])
  seals k n p hmem := by
    rcases List.mem_append.1 hmem with hmem | hmem
    · exact h.seals k n p hmem
    · exact absurd (List.mem_singleton.1 hmem).symm (hm _)
  sessions p th a b hmem := by
    rcases List.mem_append.1 hmem with hmem | hmem
    · exact h.sessions p th a b hmem
    · exact absurd (List.mem_singleton.1 hmem).symm (hs p th a b)

theorem wp_onMsg1 {s : Link} (w1 : Bytes) (hs : Safe s) (ha : s.authed = false)
    (hd : s.spec.weDialed = false) (htook : Mark.took w1 ∈ s.marks) (hnew : NoSession s.marks)
    (hseals : OnlySeals [] s.marks) :
    (onMsg1 w1).wp terms (fun _ => Rest) (fun t => Rest t.refuse) s := by
  have thrown : ∀ t : Link, Safe t → t.authed = s.authed → Rest t.refuse := fun t hst hta =>
    .of_refuse hst (hst.unauthed_ctr (hta.trans ha))
  have stalled : ∀ t : Link, Safe t → t.authed = s.authed → Rest t.stall := fun t hst hta =>
    .of_stall hst (hst.unauthed_ctr (hta.trans ha))
  unfold onMsg1
  rw [wp_ite]
  refine ⟨fun _ => stalled s hs rfl, fun hwidth => ?_⟩
  push Not at hwidth
  rw [wp_bind, wp_attempt, wp_bind]
  refine wp_acceptSecrets hs (fun list t1 hs1 hf1 => ?_) fun t hst hta => stalled t hst hta
  rw [wp_pure]
  simp only
  rw [wp_bind, wp_modify]
  have hs1' : Safe (t1.mark (.secrets list)) :=
    hs1.note trivial ⟨rfl, rfl, rfl⟩ (by simp)
  have hf1' : Flows s (t1.mark (.secrets list)) := hf1.note (by simp) (by simp)
  have hlist : Mark.secrets list ∈ (t1.mark (.secrets list)).marks := by simp [Link.mark]
  generalize t1.mark (.secrets list) = t2 at *
  simp only [probeContext]
  rw [wp_bind, wp_bind, wp_get, wp_bind, wp_need]
  refine ⟨fun root hroot => ?_, fun _ => thrown t2 hs1' hf1'.authed⟩
  refine wp_hash hs1' (fun ctx t3 h3 hs3 hf3 => ?_)
    fun t hst hta => thrown t hst (hta.trans hf1'.authed)
  have hf13 := hf1'.trans hf3
  have hd3 : t3.spec.weDialed = false := by rw [hf13.spec, hd]
  rw [wp_bind]
  refine wp_tryProbe hs3 hd3 (fun t4 secret key rest hsecret hs4 hf4 hcs hkey hopened => ?_)
    (fun t hst hta => ?_) fun t hst hta => thrown t hst (hta.trans hf13.authed)
  swap
  · rw [wp_ite]
    exact ⟨fun _ => stalled t hst (hta.trans hf13.authed), fun h => by simp at h⟩
  have hf14 := hf13.trans hf4
  have hauthed4 : t4.authed = s.authed := hf14.authed
  rw [wp_ite]
  refine ⟨fun h => by simp at h, fun _ => ?_⟩
  rw [wp_bind, wp_get, wp_ite]
  refine ⟨fun _ => stalled _ hs4 hauthed4, fun _ => ?_⟩
  rw [wp_ite]
  refine ⟨fun _ => stalled _ hs4 hauthed4, fun _ => ?_⟩
  rw [wp_bind, wp_modify, wp_bind, wp_modify, wp_bind, wp_modify]
  let p : Probe := { root, w1, list, secret, ctx, key, rest }
  have hsub34 : t3.marks ⊆ t4.marks := hf4.marks
  have hsub24 : t2.marks ⊆ t4.marks := List.Subset.trans hf3.marks hsub34
  have hopen : p.Opened t4.spec t4.marks := by
    refine ⟨hf14.marks htook, hwidth.1, hwidth.2, hsub24 hlist, hsecret, ?_, ?_, hkey, hopened⟩
    · have hspec : t4.spec = t2.spec := hf4.spec.trans hf3.spec
      rw [hspec]
      exact (hs1'.root root hroot).longer hsub24
    · exact h3.answers.longer hsub34
  have hs4' : Safe (t4.mark (.probed p.ephI)) :=
    hs4.note ⟨p, hopen, rfl⟩ ⟨rfl, rfl, rfl⟩ (by simp)
  have hproved : p.Proved t4.spec (t4.mark (.probed p.ephI)).marks :=
    ⟨hopen.longer (by simp [Link.mark]), by simp [Link.mark]⟩
  have hroot4 : t4.root = some root := hf4.root.trans (hf3.root.trans hroot)
  have hd4 : t4.spec.weDialed = false := (congrArg Spec.weDialed hf4.spec).trans hd3
  have hf4' := hf14.note (m := .probed p.ephI) (by simp) (by simp)
  have hnew4 : NoSession (t4.mark (.probed p.ephI)).marks := hf4'.noSession hnew
  have hseals4 : OnlySeals [] (t4.mark (.probed p.ephI)).marks := hf4'.onlySeals hseals
  exact wp_answerMsg1 (p := p) (hs4'.of_view rfl) (hauthed4.trans ha) hd4 hproved hroot4 hcs hnew4
    hseals4

/-- The identity a msg3 proves, or nothing. -/
theorem wp_openIdentity {s : Link} {key ct th : Bytes} {Q : Option Bytes → Link → Prop}
    {E : Link → Prop} (hs : Safe s)
    (hyes : ∀ root plain r t, s.root = some root →
      Answers t.marks (.aeadOpen key ZERO_NPUB ct) (1 :: plain) →
      Answers t.marks (.verify (plain.take PK_LEN) (slice plain PK_LEN (PK_LEN + SIG_LEN))
        (channelIdentityMessage root th (plain.take PK_LEN))) (1 :: r) →
      plain.take PK_LEN ≠ s.node.ownPk → Safe t → Flows s t → Q (some (plain.take PK_LEN)) t)
    (hno : ∀ t, Safe t → t.authed = s.authed → Q none t)
    (hE : ∀ t, Safe t → t.authed = s.authed → E t) : (openIdentity key ct th).wp terms Q E s := by
  unfold openIdentity openZero
  rw [wp_bind]
  refine wp_aeadDec hs (fun plain t1 h1 hs1 hf1 _ _ => ?_) (fun t hst hf => hno t hst hf.authed) hE
  simp only
  rw [wp_bind, wp_get, wp_bind, wp_need]
  refine ⟨fun root hroot => ?_, fun _ => hE t1 hs1 hf1.authed⟩
  simp only [verify]
  rw [wp_bind, wp_bind]
  refine wp_step hs1 rfl (by simp [Paid, Call.costly]) (fun r t2 h2 hs2 hf2 => ?_)
    fun t hst hta => hE t hst (hta.trans hf1.authed)
  have hf12 := hf1.trans hf2
  rw [wp_pure, wp_ite]
  refine ⟨fun _ => hno t2 hs2 hf12.authed, fun hgood => ?_⟩
  rw [wp_ite]
  refine ⟨fun _ => hno t2 hs2 hf12.authed, fun hother => ?_⟩
  have hverified : ∃ r', r = 1 :: r' := by
    cases r with
    | nil => simp at hgood
    | cons b r' =>
      simp at hgood
      exact ⟨r', by rw [hgood]⟩
  obtain ⟨r', rfl⟩ := hverified
  rw [hf1.node] at hother
  exact hyes root plain r' t2 (hf1.root.symm.trans hroot) (h1.longer hf2.marks) h2.answers hother hs2
    hf12

theorem wp_onMsg3 {s : Link} {r : Reply} (w3 : Bytes) (hs : Safe s) (ha : s.authed = false)
    (hd : s.spec.weDialed = false) (w : AwaitsMsg3 s r) :
    (onMsg3 w3).wp terms (fun _ => Rest) (fun t => Rest t.refuse) s := by
  have thrown : ∀ t : Link, Safe t → t.authed = s.authed → Rest t.refuse := fun t hst hta =>
    .of_refuse hst (hst.unauthed_ctr (hta.trans ha))
  have stalled : ∀ t : Link, Safe t → t.authed = s.authed → Rest t.stall := fun t hst hta =>
    .of_stall hst (hst.unauthed_ctr (hta.trans ha))
  unfold onMsg3
  rw [wp_ite]
  refine ⟨fun _ => stalled s hs rfl, fun hwidth => ?_⟩
  rw [wp_bind, wp_get, wp_bind]
  refine wp_kdf_pair hs (fun x y sec ctx key3 t1 hx hy hsec hctx h1 hs1 hf1 => ?_) thrown
  obtain rfl := (w.ee x hx).symm
  obtain rfl := (w.ss y hy).symm
  obtain rfl : r.secret = sec := Option.some.inj (w.secret.symm.trans hsec)
  obtain rfl : r.th = ctx := Option.some.inj (w.th.symm.trans hctx)
  rw [wp_bind, wp_get, wp_bind, wp_need]
  refine ⟨fun th hth => ?_, fun _ => thrown t1 hs1 hf1.authed⟩
  obtain rfl : r.th = th := Option.some.inj ((hf1.th.trans w.th).symm.trans hth)
  rw [wp_bind]
  refine wp_openIdentity hs1 (fun root plain v t2 hroot h2 hv hother hs2 hf2 => ?_)
    (fun t hst hta => stalled t hst (hta.trans hf1.authed))
    fun t hst hta => thrown t hst (hta.trans hf1.authed)
  obtain rfl : r.root = root := Option.some.inj ((hf1.root.trans w.root).symm.trans hroot)
  have hf12 := hf1.trans hf2
  simp only
  rw [wp_bind, wp_get, wp_ite]
  refine ⟨fun _ => .of_abort true hs2, fun _ => ?_⟩
  rw [wp_bind, wp_modify, wp_bind]
  have ha2 : t2.authed = false := hf12.authed.trans ha
  refine wp_hash (hs2.setPeer ha2 _ _) (fun fin t3 h3 hs3 hf3 => ?_)
    fun t hst hta => thrown t hst (hta.trans hf12.authed)
  have ha3 : t3.authed = false := hf3.authed.trans ha2
  have hspec3 : t3.spec = s.spec := hf3.spec.trans hf12.spec
  have hnode3 : t3.node = s.node := hf3.node.trans hf12.node
  have hsub23 : t2.marks ⊆ t3.marks := hf3.marks
  have hsub13 : t1.marks ⊆ t3.marks := List.Subset.trans hf2.marks hsub23
  have hsub3 : s.marks ⊆ t3.marks := List.Subset.trans hf1.marks hsub13
  rw [wp_bind, wp_modify, wp_bind, wp_attempt, wp_bind]
  refine wp_derive (s := { t3 with th := some fin }) r.ee r.ss r.secret fin (hs3.of_view rfl) ha3 rfl
    ?_ ?_ ?_ ?_ ?_ ?_ ?_
  · exact hf3.secret.trans (hf12.secret.trans w.secret)
  · intro x hx
    exact w.ee x (hf12.ee.of_some (hf3.ee.of_some hx))
  · intro x hx
    exact w.ss x (hf12.ss.of_some (hf3.ss.of_some hx))
  · exact hf3.noSession (hf12.noSession w.new)
  · intro log i2r r2i hlog hi hr
    have hd3 : t3.spec.weDialed = false := by rw [hspec3, hd]
    refine .inr ⟨hd3, { r with w3, key3, plain, fin, i2r, r2i }, ?_, hf3.peerId, rfl, ?_, ?_⟩
    · simp only [hspec3, hnode3]
      refine ⟨w.made.longer (List.Subset.trans hsub3 hlog), by simpa using hwidth, ?_, ?_, ⟨v, ?_⟩,
        ?_, h3.answers.longer hlog, hi, hr⟩
      · exact h1.answers.longer (List.Subset.trans hsub13 hlog)
      · exact h2.longer (List.Subset.trans hsub23 hlog)
      · exact hv.longer (List.Subset.trans hsub23 hlog)
      · rw [← hf1.node]
        exact hother
    · simp [hd3]
    · simp [hd3]
  · intro t ks kr hst hta hspec hnode hsub hmem hks hkr
    rw [wp_pure, wp_ite]
    exact ⟨fun _ => wp_becomeAuthed hst hta hmem hks hkr fun v hsv hfv => .of_refuse hsv hfv,
      fun h => by simp at h⟩
  · intro t hst hta
    rw [wp_bind, wp_modify, wp_pure, wp_ite]
    exact ⟨fun h => by simp at h, fun _ => stalled t hst (hta.trans ha.symm)⟩

end Link

end SeedTransport
