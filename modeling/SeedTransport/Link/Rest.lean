import SeedTransport.Link.Safe

set_option autoImplicit false

namespace SeedTransport

/-! A link between two steps of its work chain: what each handler may count on when its
message comes. -/

/-- Every seal so far was made with a key of one of these labels. -/
def OnlySeals (labels : List Bytes) (log : List Mark) : Prop :=
  ∀ k n p, Mark.asked (.aeadSeal k n p) ∈ log → ∃ label ∈ labels, Keyed log label k

namespace Link

/-- The next seal has a counter to use, or there will be none. -/
def CtrFits (l : Link) : Prop :=
  l.sendCtr < l.spec.rekeyAfterFrames ∨ l.closed = true ∧ l.parting = false ∨ l.sendKey = none

/-- A dialer that sent its msg1. -/
structure AwaitsMsg2 (l : Link) (h : Hello) : Prop where
  made : h.Made l.spec l.marks
  th : l.th = some h.th
  root : l.root = some h.root
  eph : ∀ p, l.myEph = some p → p.privateKey = h.sk
  kem : ∀ p, l.myKem = some p → p.privateKey = h.kemSk
  new : NoSession l.marks
  seals : OnlySeals [LABEL_PROBE] l.marks

/-- An acceptor that sent its msg2. -/
structure AwaitsMsg3 (l : Link) (r : Reply) : Prop where
  made : r.Made l.spec l.node.ownPk l.marks
  th : l.th = some r.th
  root : l.root = some r.root
  secret : l.contactSecret = some r.secret
  ee : ∀ x, l.ee = some x → x = r.ee
  ss : ∀ x, l.kemSecret = some x → x = r.ss
  new : NoSession l.marks

/-- What the handler of the next message may count on. -/
inductive Ready (l : Link) : Prop where
  | record (authed : l.authed = true) (ctr : l.recvCtr < l.spec.rekeyAfterFrames) : Ready l
  | msg2 (authed : l.authed = false) (dialed : l.spec.weDialed = true) (h : Hello)
      (awaits : l.AwaitsMsg2 h) : Ready l
  | msg1 (authed : l.authed = false) (accepted : l.spec.weDialed = false)
      (first : l.peerEph = none) (new : NoSession l.marks) (seals : OnlySeals [] l.marks) : Ready l
  | msg3 (authed : l.authed = false) (accepted : l.spec.weDialed = false)
      (second : l.peerEph ≠ none) (r : Reply) (awaits : l.AwaitsMsg3 r) : Ready l

/-- A link at rest: a closed or stalled one takes no more messages. -/
structure Rest (l : Link) : Prop where
  safe : Safe l
  ready : l.closed = true ∨ l.stalled = true ∨ Ready l
  ctr : CtrFits l

variable {l l' : Link}

theorem CtrFits.moves (h : CtrFits l) (hm : Moves l l') : CtrFits l' := by
  rcases h with h | ⟨hc, hp⟩ | h
  · exact .inl (by rw [hm.sendCtr, hm.spec]; exact h)
  · exact .inr (.inl ⟨hm.closed hc, hm.parted hc hp⟩)
  · refine .inr (.inr ?_)
    rcases hm.sendKey with hk | hk
    · rw [hk, h]
    · exact hk

theorem CtrFits.after {c : Call} {a : Option Bytes} (h : CtrFits l) (hm : After c a l l') :
    CtrFits l' := by
  have h' : CtrFits { l' with marks := l.marks } := h.moves hm.moves
  exact h'

theorem AwaitsMsg2.moves {h : Hello} (w : l.AwaitsMsg2 h) (hm : Moves l l') : l'.AwaitsMsg2 h where
  made := by rw [hm.spec, hm.marks]; exact w.made
  th := hm.th.trans w.th
  root := hm.root.trans w.root
  eph p hp := w.eph p (hm.myEph.of_some hp)
  kem p hp := w.kem p (hm.myKem.of_some hp)
  new := by rw [hm.marks]; exact w.new
  seals := by rw [hm.marks]; exact w.seals

theorem AwaitsMsg3.moves {r : Reply} (w : l.AwaitsMsg3 r) (hm : Moves l l') : l'.AwaitsMsg3 r where
  made := by rw [hm.spec, hm.node, hm.marks]; exact w.made
  th := hm.th.trans w.th
  root := hm.root.trans w.root
  secret := hm.contactSecret.trans w.secret
  ee x hx := w.ee x (hm.ee.of_some hx)
  ss x hx := w.ss x (hm.kemSecret.of_some hx)
  new := by rw [hm.marks]; exact w.new

theorem Ready.moves (h : Ready l) (hm : Moves l l') : Ready l' := by
  cases h with
  | record ha hc => exact .record (hm.authed.trans ha) (by rw [hm.recvCtr, hm.spec]; exact hc)
  | msg2 ha hd h w => exact .msg2 (hm.authed.trans ha) (by rw [hm.spec]; exact hd) h (w.moves hm)
  | msg1 ha hd hf hn hs =>
    exact .msg1 (hm.authed.trans ha) (by rw [hm.spec]; exact hd) (hm.peerEph.trans hf)
      (by rw [hm.marks]; exact hn) (by rw [hm.marks]; exact hs)
  | msg3 ha hd hf r w =>
    exact .msg3 (hm.authed.trans ha) (by rw [hm.spec]; exact hd) (by rw [hm.peerEph]; exact hf) r
      (w.moves hm)

theorem Rest.moves (h : Rest l) (hm : Moves l l') : Rest l' where
  safe := h.safe.moves hm
  ready := by
    rcases h.ready with hc | hs | hr
    · exact .inl (hm.closed hc)
    · exact .inr (.inl (hm.stalled hs))
    · exact .inr (.inr (hr.moves hm))
  ctr := h.ctr.moves hm

theorem abort_parted (defensive : Bool) (l : Link) :
    (l.abort defensive).closed = true ∧ (l.abort defensive).parting = false := by
  unfold abort endLink
  split
  · rename_i hc
    simp [noteEnd, hc]
  · simp [enqueue]

theorem stall_stalled (l : Link) : l.stall.stalled = true := by
  unfold stall
  split
  · assumption
  · rfl

/-- A link that aborts is at rest. -/
theorem Rest.of_abort (defensive : Bool) (h : Safe l) : Rest (l.abort defensive) where
  safe := h.moves (abort_moves defensive l)
  ready := .inl (abort_parted defensive l).1
  ctr := .inr (.inl (abort_parted defensive l))

/-- A link that stalls is at rest. -/
theorem Rest.of_stall (h : Safe l) (hc : CtrFits l) : Rest l.stall where
  safe := h.moves (stall_moves l)
  ready := .inr (.inl (stall_stalled l))
  ctr := hc.moves (stall_moves l)

/-- Whatever a step throws, the refusal behind it leaves the link at rest. -/
theorem Rest.of_refuse (h : Safe l) (hc : CtrFits l) : Rest l.refuse := by
  unfold refuse
  split
  · exact .of_abort true h
  · exact .of_stall h hc

theorem Safe.unauthed_ctr (h : Safe l) (ha : l.authed = false) : CtrFits l := by
  have h1 := (h.early ha).2.1
  have h2 := h.loads.1
  exact .inl (by omega)

end Link

end SeedTransport
