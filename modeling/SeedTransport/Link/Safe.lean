import SeedTransport.Link.Rely
import SeedTransport.Link.Laws

set_option autoImplicit false

namespace SeedTransport

/-! The invariant that ties a link's state to its log, and how calls and moves keep it. -/

/-- No link ever seals in a later epoch than this: the flush of a full queue, then the epochs
`send` lets pass, then the records it had taken by then. -/
def MAX_EPOCH : Nat := MAX_QUEUE_BYTES + REJECT_AFTER_EPOCHS + maxOutboundQueueSlices

theorem MAX_EPOCH_lt : MAX_EPOCH < 2 ^ 32 := by decide

namespace Link

/-- What the invariant reads of a link. -/
structure View where
  node : Node
  spec : Spec
  root : Option Bytes
  contactSecret : Option Bytes
  peerId : Bytes
  authed : Bool
  peerSaidGoodbye : Bool
  closed : Bool
  myEph : Option KeyPair
  myKem : Option KeyPair
  sendKey : Option Bytes
  recvKey : Option Bytes
  sendEpoch : Nat
  sendCtr : Nat
  recvEpoch : Nat
  recvCtr : Nat
  marks : List Mark
  work : List Job
  slices : Nat
  queue : List Bytes
  queuedBytes : Nat

def view (l : Link) : View where
  node := l.node
  spec := l.spec
  root := l.root
  contactSecret := l.contactSecret
  peerId := l.peerId
  authed := l.authed
  peerSaidGoodbye := l.peerSaidGoodbye
  closed := l.closed
  myEph := l.myEph
  myKem := l.myKem
  sendKey := l.sendKey
  recvKey := l.recvKey
  sendEpoch := l.sendEpoch
  sendCtr := l.sendCtr
  recvEpoch := l.recvEpoch
  recvCtr := l.recvCtr
  marks := l.marks
  work := l.work
  slices := l.outboundQueuedSlices
  queue := l.queue
  queuedBytes := l.queuedBytes

/-- A seal the log has an answer for was made with a handshake key, or before `place`. -/
def SealsPast (log : List Mark) (place : ℕ ×ₗ ℕ) : Prop :=
  ∀ k n p ct, Mark.done (.aeadSeal k n p) (some ct) ∈ log →
    (∃ label ∈ handshakeLabels, Keyed log label k) ∨
    ∃ e c, e < 2 ^ 32 ∧ c < 2 ^ 32 ∧ n = nonce e c ∧ toLex (e, c) < place

/-- An authenticated link's keys come from its session. -/
def HasSession (l : Link) : Prop :=
  ∃ t s r, Mark.session l.peerId t s r ∈ l.marks ∧
    (∀ k, l.sendKey = some k → KeyChain l.marks s l.sendEpoch k) ∧
    (∀ k, l.recvKey = some k → KeyChain l.marks r l.recvEpoch k)

/-- All but what ties the receiving side to its log, which a record in hand leaves open. -/
structure Core (l : Link) : Prop where
  loads : l.spec.Loads
  lawful : Lawful l.spec l.node.ownPk l.marks
  root : ∀ r, l.root = some r → Answers l.marks (.hash (DOMAIN_CHANNEL ++ l.spec.networkKey)) r
  secret : l.spec.weDialed = true → l.contactSecret = l.spec.linkSecret
  eph : ∀ p, l.myEph = some p →
    Answers l.marks (.dh p.privateKey X25519_BASEPOINT) (1 :: p.publicKey)
  kem : ∀ p, l.myKem = some p → ∃ seed r, Answers l.marks (.kemKeypair seed) r ∧
    r.length = KEM_PK_LEN + KEM_SK_LEN ∧ p = ⟨r.take KEM_PK_LEN, r.drop KEM_PK_LEN⟩
  booted : Job.boot ∉ l.work
  queue : l.QueueFits
  taken : records l.work ≤ l.outboundQueuedSlices
  slices : l.outboundQueuedSlices ≤ maxOutboundQueueSlices
  budget : l.sendEpoch + records l.work ≤ MAX_EPOCH
  early : l.authed = false → l.sendEpoch = 0 ∧ l.sendCtr = 0 ∧ l.recvEpoch = 0 ∧ l.recvCtr = 0 ∧
    records l.work = 0
  late : l.authed = true → l.HasSession
  sealedPast : ∀ r ∈ sealedRecs l.marks,
    advance l.spec.rekeyAfterFrames r.before.place ≤ l.sendPos.place
  sealsPast : SealsPast l.marks l.sendPos.place
  parted : l.peerSaidGoodbye = true → l.closed = true

structure Safe (l : Link) : Prop extends Core l where
  recvHere : l.recvCtr < l.spec.rekeyAfterFrames →
    l.recvPos.place = endPlace (acceptedRecs l.marks)
  passed : framesOf l.marks ++ (if l.peerSaidGoodbye then [[]] else []) =
    (acceptedRecs l.marks).map Rec.text
  nonempty : ∀ f ∈ framesOf l.marks, f ≠ []

section Keep

variable {l l' : Link}

theorem Core.of_view (h : Core l) (hv : l'.view = l.view) : Core l' := by
  simp only [view, View.mk.injEq] at hv
  obtain ⟨h1, h2, h3, h4, h5, h6, h7, h8, h9, h10, h11, h12, h13, h14, h15, h16, h17, h18, h19,
    h20, h21⟩ := hv
  constructor
  · rw [h2]; exact h.loads
  · rw [h1, h2, h17]; exact h.lawful
  · rw [h2, h3, h17]; exact h.root
  · rw [h2, h4]; exact h.secret
  · rw [h9, h17]; exact h.eph
  · rw [h10, h17]; exact h.kem
  · rw [h18]; exact h.booted
  · exact ⟨by rw [h20, h21]; exact h.queue.bytes, by rw [h20]; exact h.queue.nonempty,
      by rw [h20]; exact h.queue.length⟩
  · rw [h18, h19]; exact h.taken
  · rw [h19]; exact h.slices
  · rw [h13, h18]; exact h.budget
  · rw [h6, h13, h14, h15, h16, h18]; exact h.early
  · unfold HasSession
    rw [h5, h6, h11, h12, h13, h15, h17]; exact h.late
  · unfold sendPos
    rw [h2, h13, h14, h17, h11]; exact h.sealedPast
  · unfold sendPos
    rw [h13, h14, h17, h11]; exact h.sealsPast
  · rw [h7, h8]; exact h.parted

theorem Safe.of_view (h : Safe l) (hv : l'.view = l.view) : Safe l' := by
  refine ⟨h.toCore.of_view hv, ?_, ?_, ?_⟩
  all_goals simp only [view, View.mk.injEq] at hv
  · unfold recvPos
    rw [hv.2.1, hv.2.2.2.2.2.2.2.2.2.2.2.1, hv.2.2.2.2.2.2.2.2.2.2.2.2.2.2.1,
      hv.2.2.2.2.2.2.2.2.2.2.2.2.2.2.2.1, hv.2.2.2.2.2.2.2.2.2.2.2.2.2.2.2.2.1]
    exact h.recvHere
  · rw [hv.2.2.2.2.2.2.1, hv.2.2.2.2.2.2.2.2.2.2.2.2.2.2.2.2.1]; exact h.passed
  · rw [hv.2.2.2.2.2.2.2.2.2.2.2.2.2.2.2.2.1]; exact h.nonempty

theorem Core.moves (h : Core l) (hm : Moves l l') : Core l' := by
  have hsend : l'.sendPos.place = l.sendPos.place := by
    simp only [sendPos, Pos.place, hm.sendEpoch, hm.sendCtr]
  have htaken : records l'.work ≤ l'.outboundQueuedSlices := by
    have := hm.records
    have := h.taken
    omega
  constructor
  · rw [hm.spec]; exact h.loads
  · rw [hm.node, hm.spec, hm.marks]; exact h.lawful
  · rw [hm.spec, hm.root, hm.marks]; exact h.root
  · rw [hm.spec, hm.contactSecret]; exact h.secret
  · rw [hm.marks]; exact fun p hp => h.eph p (hm.myEph.of_some hp)
  · rw [hm.marks]; exact fun p hp => h.kem p (hm.myKem.of_some hp)
  · obtain ⟨js, hj, hb⟩ := hm.work
    simp [hj, hb, h.booted]
  · exact hm.queue h.queue
  · exact htaken
  · rcases hm.bounded with hb | hb
    · rw [hb]; exact h.slices
    · exact hb.2.2
  · rw [hm.sendEpoch]
    have hrec := hm.records
    have hbud := h.budget
    rcases hm.bounded with hb | hb
    · omega
    · have : REJECT_AFTER_EPOCHS + maxOutboundQueueSlices ≤ MAX_EPOCH := by decide
      omega
  · rw [hm.authed, hm.sendEpoch, hm.sendCtr, hm.recvEpoch, hm.recvCtr]
    intro ha
    obtain ⟨h1, h2, h3, h4, h5⟩ := h.early ha
    have hrec := hm.records
    refine ⟨h1, h2, h3, h4, ?_⟩
    rcases hm.bounded with hb | hb
    · omega
    · rw [ha] at hb
      simp at hb
  · rw [hm.authed]
    intro ha
    obtain ⟨t, s, r, hmem, hs, hr⟩ := h.late ha
    refine ⟨t, s, r, ?_, ?_, ?_⟩
    · rw [hm.peerId, hm.marks]; exact hmem
    · rw [hm.marks, hm.sendEpoch]; exact fun k hk => hs k (hm.sendKey.of_some hk)
    · rw [hm.marks, hm.recvEpoch]; exact fun k hk => hr k (hm.recvKey.of_some hk)
  · rw [hm.marks, hm.spec, hsend]; exact h.sealedPast
  · rw [hm.marks, hsend]; exact h.sealsPast
  · rw [hm.peerSaidGoodbye]; exact fun hg => hm.closed (h.parted hg)

/-- Nothing from outside breaks the invariant. -/
theorem Safe.moves (h : Safe l) (hm : Moves l l') : Safe l' := by
  have hrecv : l'.recvPos.place = l.recvPos.place := by
    simp only [recvPos, Pos.place, hm.recvEpoch, hm.recvCtr]
  refine ⟨h.toCore.moves hm, ?_, ?_, ?_⟩
  · rw [hm.recvCtr, hm.spec, hm.marks, hrecv]; exact h.recvHere
  · rw [hm.marks, hm.peerSaidGoodbye]; exact h.passed
  · rw [hm.marks]; exact h.nonempty

theorem sealsPast_longer {log : List Mark} {m : Mark} {place place' : ℕ ×ₗ ℕ}
    (h : SealsPast log place) (hle : place ≤ place')
    (hm : ∀ k n p ct, m = .done (.aeadSeal k n p) (some ct) →
      (∃ label ∈ handshakeLabels, Keyed log label k) ∨
      ∃ e c, e < 2 ^ 32 ∧ c < 2 ^ 32 ∧ n = nonce e c ∧ toLex (e, c) < place') :
    SealsPast (log ++ [m]) place' := by
  have hsub : log ⊆ log ++ [m] := by simp
  intro k n p ct hmem
  rcases List.mem_append.1 hmem with hmem | hmem
  · rcases h k n p ct hmem with ⟨label, hl, hk⟩ | ⟨e, c, he, hc, hn, hlt⟩
    · exact .inl ⟨label, hl, hk.longer hsub⟩
    · exact .inr ⟨e, c, he, hc, hn, hlt.trans_le hle⟩
  · rcases hm k n p ct (List.mem_singleton.1 hmem).symm with ⟨label, hl, hk⟩ | h
    · exact .inl ⟨label, hl, hk.longer hsub⟩
    · exact .inr h

theorem hasSession_longer {m : Mark} (h : l.HasSession) : (l.mark m).HasSession := by
  have hsub : l.marks ⊆ l.marks ++ [m] := by simp
  obtain ⟨t, s, r, hmem, hs, hr⟩ := h
  exact ⟨t, s, r, hsub hmem, fun k hk => (hs k hk).longer hsub, fun k hk => (hr k hk).longer hsub⟩

/-- A mark keeps the invariant when its law holds, a record sealed lies behind the link's
place, and a seal that was answered had a handshake key. -/
theorem Core.mark {m : Mark} (h : Core l) (hlaw : Law l.spec l.node.ownPk l.marks m)
    (hrec : ∀ r, sealedOf m = some r →
      advance l.spec.rekeyAfterFrames r.before.place ≤ l.sendPos.place)
    (hm : ∀ k n p ct, m = .done (.aeadSeal k n p) (some ct) →
      ∃ label ∈ handshakeLabels, Keyed l.marks label k) : Core (l.mark m) := by
  have hsub : l.marks ⊆ l.marks ++ [m] := by simp
  constructor
  · exact h.loads
  · exact h.lawful.concat hlaw
  · exact fun r hr => (h.root r hr).longer hsub
  · exact h.secret
  · exact fun p hp => (h.eph p hp).longer hsub
  · intro p hp
    obtain ⟨seed, r, hr, h2⟩ := h.kem p hp
    exact ⟨seed, r, hr.longer hsub, h2⟩
  · exact h.booted
  · exact ⟨h.queue.bytes, h.queue.nonempty, h.queue.length⟩
  · exact h.taken
  · exact h.slices
  · exact h.budget
  · exact h.early
  · exact fun ha => hasSession_longer (h.late ha)
  · intro r hr
    simp only [Link.mark, sealedRecs, List.filterMap_append, List.mem_append] at hr
    rcases hr with hr | hr
    · exact h.sealedPast r hr
    · simp only [List.filterMap_cons, List.filterMap_nil] at hr
      cases hm : sealedOf m with
      | none => simp [hm] at hr
      | some r' =>
        simp only [hm, List.mem_singleton] at hr
        exact hr ▸ hrec r' hm
  · exact sealsPast_longer h.sealsPast le_rfl fun k n p ct he => .inl (hm k n p ct he)
  · exact h.parted

theorem Safe.mark {m : Mark} (h : Safe l) (hlaw : Law l.spec l.node.ownPk l.marks m)
    (hrec : ∀ r, sealedOf m = some r →
      advance l.spec.rekeyAfterFrames r.before.place ≤ l.sendPos.place)
    (hp : acceptedOf m = none ∧ frameOf m = none)
    (hm : ∀ k n p ct, m = .done (.aeadSeal k n p) (some ct) →
      ∃ label ∈ handshakeLabels, Keyed l.marks label k) : Safe (l.mark m) := by
  have haccepted : acceptedRecs (l.marks ++ [m]) = acceptedRecs l.marks := by
    simp [acceptedRecs, List.filterMap_append, hp.1]
  have hframes : framesOf (l.marks ++ [m]) = framesOf l.marks := by
    simp [framesOf, List.filterMap_append, hp.2]
  refine ⟨h.toCore.mark hlaw hrec hm, ?_, ?_, ?_⟩
  · simp only [Link.mark, haccepted]
    exact h.recvHere
  · simp only [Link.mark, hframes, haccepted]
    exact h.passed
  · simp only [Link.mark, hframes]
    exact h.nonempty

end Keep

/-! ### Waiting for an answer -/

/-- Where a call to the seal stands: a handshake key under the zero nonce, or the link's own
place, which the nonce holds without wrapping. -/
def SealHere (c : Call) (l : Link) : Prop :=
  match c with
  | .aeadSeal k n _ =>
    (n = ZERO_NPUB ∧ ∃ label ∈ handshakeLabels, Keyed l.marks label k) ∨
    (n = nonce l.sendEpoch l.sendCtr ∧ l.sendEpoch < 2 ^ 32 ∧ l.sendCtr < 2 ^ 32)
  | _ => True

def Yields (c : Call) (l : Link) : Prop := Safe l ∧ SealHere c l

def terms : Async.Terms Link Call Bytes :=
  { Link.system.toNotes with rely := Moves, yields := Yields }

theorem SealHere.moves {c : Call} {l l' : Link} (hm : Moves l l') (h : SealHere c l) :
    SealHere c l' := by
  cases c with
  | aeadSeal k n p =>
    simp only [SealHere] at h ⊢
    rw [hm.marks, hm.sendEpoch, hm.sendCtr]
    exact h
  | _ => trivial

/-- `t` is `s` once the call `c` it made was answered `a`, whatever moved meanwhile. -/
structure After (c : Call) (a : Option Bytes) (s t : Link) : Prop where
  moves : Moves s { t with marks := s.marks }
  marks : t.marks = s.marks ++ [.asked c, .done c a]

namespace After

variable {c : Call} {a : Option Bytes} {s t : Link}

theorem of_rely {s' : Link} (h : Moves (s.mark (.asked c)) s') : After c a s (s'.mark (.done c a)) where
  moves := h.withMarks s.marks
  marks := by
    have := h.marks
    simp [Link.mark] at this ⊢
    simp [this]

theorem node (h : After c a s t) : t.node = s.node := h.moves.node
theorem spec (h : After c a s t) : t.spec = s.spec := h.moves.spec
theorem root (h : After c a s t) : t.root = s.root := h.moves.root
theorem contactSecret (h : After c a s t) : t.contactSecret = s.contactSecret :=
  h.moves.contactSecret
theorem peerId (h : After c a s t) : t.peerId = s.peerId := h.moves.peerId
theorem authed (h : After c a s t) : t.authed = s.authed := h.moves.authed
theorem peerEph (h : After c a s t) : t.peerEph = s.peerEph := h.moves.peerEph
theorem th (h : After c a s t) : t.th = s.th := h.moves.th
theorem sendEpoch (h : After c a s t) : t.sendEpoch = s.sendEpoch := h.moves.sendEpoch
theorem sendCtr (h : After c a s t) : t.sendCtr = s.sendCtr := h.moves.sendCtr
theorem recvEpoch (h : After c a s t) : t.recvEpoch = s.recvEpoch := h.moves.recvEpoch
theorem recvCtr (h : After c a s t) : t.recvCtr = s.recvCtr := h.moves.recvCtr

theorem subset (h : After c a s t) : s.marks ⊆ t.marks := by simp [h.marks]

theorem answers {y : Bytes} (h : After c (some y) s t) : Answers t.marks c y := by
  simp [Answers, h.marks]

theorem asked_mem (h : After c a s t) : Mark.asked c ∈ t.marks := by simp [h.marks]

end After

/-- The call rule: the invariant must hold when the call is made, and the rest of the
program must do from whatever state the answer finds. -/
theorem wp_ask {c : Call} {Q : Bytes → Link → Prop} {E : Link → Prop} {s : Link}
    (hy : Yields c (s.mark (.asked c))) (hQ : ∀ b t, After c (some b) s t → Q b t)
    (hE : ∀ t, After c none s t → E t) : (Async.Prog.call c : LinkProg Bytes).wp terms Q E s := by
  rw [Async.Prog.wp_call]
  refine ⟨hy, fun s' hr => ⟨fun b => hQ b _ (.of_rely hr), hE _ (.of_rely hr)⟩⟩

/-- Calls that need no law beyond their cost, and pass nothing on. -/
def calm : Call → Bool
  | .aeadSeal _ _ _ => false
  | .wire _ => false
  | .onFrame _ _ => false
  | .sign _ => false
  | _ => true

/-- An accept that makes a costly call has its msg1 proved. -/
def Paid (c : Call) (l : Link) : Prop :=
  c.costly = true → l.spec.weDialed = false → ∃ p : Probe, p.Proved l.spec l.marks

/-- The state an answer finds, before it is noted. -/
theorem After.found {c : Call} {a : Option Bytes} {s t : Link} (h : After c a s t) (hs : Safe s)
    (hlaw : Law s.spec s.node.ownPk s.marks (.asked c)) (hf : frameOf (Mark.asked c) = none) :
    Safe { t with marks := s.marks ++ [.asked c] } := by
  have h1 : Safe (s.mark (.asked c)) :=
    hs.mark hlaw (by simp [sealedOf]) ⟨rfl, hf⟩ fun _ _ _ _ he => nomatch he
  exact h1.moves (h.moves.withMarks (s.marks ++ [Mark.asked c]))

theorem After.safe {c : Call} {a : Option Bytes} {s t : Link} (h : After c a s t) (hs : Safe s)
    (hlaw : Law s.spec s.node.ownPk s.marks (.asked c)) (hf : frameOf (Mark.asked c) = none)
    (hk : ∀ k n p ct, Mark.done c a = .done (.aeadSeal k n p) (some ct) →
      ∃ label ∈ handshakeLabels, Keyed s.marks label k) : Safe t := by
  have h3 : Safe (Link.mark (.done c a) { t with marks := s.marks ++ [.asked c] }) := by
    refine (h.found hs hlaw hf).mark ?_ (by simp [sealedOf]) ⟨rfl, rfl⟩ fun k n p ct he => ?_
    · simp [Law]
    · obtain ⟨label, hl, hk⟩ := hk k n p ct he
      exact ⟨label, hl, hk.longer (by simp)⟩
  refine h3.of_view ?_
  simp [view, Link.mark, h.marks]

/-- A call that seals nothing and passes nothing on, by the law of its kind. -/
theorem wp_plain {c : Call} {Q : Bytes → Link → Prop} {E : Link → Prop} {s : Link} (hs : Safe s)
    (hlaw : Law s.spec s.node.ownPk s.marks (.asked c)) (hf : frameOf (Mark.asked c) = none)
    (hk : ∀ k n p, c ≠ .aeadSeal k n p) (hQ : ∀ b t, After c (some b) s t → Safe t → Q b t)
    (hE : ∀ t, After c none s t → Safe t → E t) :
    (Async.Prog.call c : LinkProg Bytes).wp terms Q E s := by
  have hk' : ∀ a k n p ct, Mark.done c a = .done (.aeadSeal k n p) (some ct) →
      ∃ label ∈ handshakeLabels, Keyed s.marks label k := by
    intro a k n p ct he
    cases he
    exact absurd rfl (hk k n p)
  refine wp_ask ⟨hs.mark hlaw (by simp [sealedOf]) ⟨rfl, hf⟩ (fun _ _ _ _ he => nomatch he), ?_⟩
    (fun b t ht => hQ b t ht (ht.safe hs hlaw hf (hk' _)))
    fun t ht => hE t ht (ht.safe hs hlaw hf (hk' _))
  cases c with
  | aeadSeal k n p => exact absurd rfl (hk k n p)
  | _ => trivial

theorem wp_calm {c : Call} {Q : Bytes → Link → Prop} {E : Link → Prop} {s : Link} (hs : Safe s)
    (hc : calm c = true) (hp : Paid c s) (hQ : ∀ b t, After c (some b) s t → Safe t → Q b t)
    (hE : ∀ t, After c none s t → Safe t → E t) :
    (Async.Prog.call c : LinkProg Bytes).wp terms Q E s := by
  have hlaw : Law s.spec s.node.ownPk s.marks (.asked c) := by
    refine ⟨hp, ?_⟩
    cases c <;> simp_all [calm]
  have hf : frameOf (Mark.asked c) = none := by cases c <;> simp_all [calm, frameOf]
  refine wp_plain hs hlaw hf (fun k n p he => ?_) hQ hE
  simp [he, calm] at hc

/-- A signature, by the law of signatures. -/
theorem wp_sign {m : Bytes} {Q : Bytes → Link → Prop} {E : Link → Prop} {s : Link} (hs : Safe s)
    (hp : Paid (.sign m) s) (hm : SignLaw s.spec s.node.ownPk s.marks m)
    (hQ : ∀ b t, After (.sign m) (some b) s t → Safe t → Q b t)
    (hE : ∀ t, After (.sign m) none s t → Safe t → E t) :
    (Async.Prog.call (.sign m) : LinkProg Bytes).wp terms Q E s :=
  wp_plain hs ⟨hp, hm⟩ rfl (fun k n p he => by cases he) hQ hE

/-- A write, by the law of writes. -/
theorem wp_wire {m : Bytes} {Q : Unit → Link → Prop} {E : Link → Prop} {s : Link} (hs : Safe s)
    (hp : Paid (.wire m) s) (hw : WireLaw s.spec s.node.ownPk s.marks m)
    (hQ : ∀ b t, After (.wire m) (some b) s t → Safe t → Q () t)
    (hE : ∀ t, After (.wire m) none s t → Safe t → E t) : (wire m).wp terms Q E s := by
  have hlaw : Law s.spec s.node.ownPk s.marks (.asked (.wire m)) := ⟨hp, hw⟩
  unfold wire
  rw [Async.Prog.wp_bind]
  exact wp_ask ⟨hs.mark hlaw (by simp [sealedOf]) ⟨rfl, rfl⟩ (fun _ _ _ _ he => nomatch he), trivial⟩
    (fun b t ht => hQ b t ht (ht.safe hs hlaw rfl (fun _ _ _ _ he => nomatch he)))
    fun t ht => hE t ht (ht.safe hs hlaw rfl (fun _ _ _ _ he => nomatch he))

end Link

end SeedTransport
