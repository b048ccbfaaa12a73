import SeedTransport.Link.Model

set_option autoImplicit false

namespace SeedTransport

/-! What the outside can do to a link while a step of its work chain waits. -/

namespace Link

/-- What only the work chain changes. -/
structure Fixed where
  node : Node
  spec : Spec
  root : Option Bytes
  contactSecret : Option Bytes
  peerPubkey : Option Bytes
  peerId : Bytes
  authed : Bool
  peerSaidGoodbye : Bool
  peerEph : Option Bytes
  th : Option Bytes
  sendEpoch : Nat
  sendCtr : Nat
  recvEpoch : Nat
  recvCtr : Nat
  marks : List Mark

def fixed (l : Link) : Fixed where
  node := l.node
  spec := l.spec
  root := l.root
  contactSecret := l.contactSecret
  peerPubkey := l.peerPubkey
  peerId := l.peerId
  authed := l.authed
  peerSaidGoodbye := l.peerSaidGoodbye
  peerEph := l.peerEph
  th := l.th
  sendEpoch := l.sendEpoch
  sendCtr := l.sendCtr
  recvEpoch := l.recvEpoch
  recvCtr := l.recvCtr
  marks := l.marks

/-- A secret is kept or wiped. -/
def KeptOrWiped {α : Type} (a b : Option α) : Prop := b = a ∨ b = none

def isRecord : Job → Bool
  | .record _ => true
  | _ => false

/-- The records that wait in the chain. -/
def records (work : List Job) : Nat := work.countP isRecord

/-- The pre-auth queue keeps to its byte budget: no frame in it is empty, so it bounds their
number too. -/
structure QueueFits (l : Link) : Prop where
  bytes : l.queuedBytes = (l.queue.map List.length).sum
  nonempty : ∀ f ∈ l.queue, f ≠ []
  length : l.queue.length ≤ MAX_QUEUE_BYTES

/-- `l'` is `l` after some calls from outside. -/
structure Moves (l l' : Link) : Prop where
  fixed : l'.fixed = l.fixed
  sendKey : KeptOrWiped l.sendKey l'.sendKey
  recvKey : KeptOrWiped l.recvKey l'.recvKey
  myEph : KeptOrWiped l.myEph l'.myEph
  myKem : KeptOrWiped l.myKem l'.myKem
  ee : KeptOrWiped l.ee l'.ee
  kemSecret : KeptOrWiped l.kemSecret l'.kemSecret
  closed : l.closed = true → l'.closed = true
  stalled : l.stalled = true → l'.stalled = true
  parted : l.closed = true → l.parting = false → l'.parting = false
  work : ∃ js, l'.work = l.work ++ js ∧ Job.boot ∉ js
  records : records l'.work + l.outboundQueuedSlices = records l.work + l'.outboundQueuedSlices
  bounded : l'.outboundQueuedSlices = l.outboundQueuedSlices ∨
    l.authed = true ∧ l.sendEpoch < REJECT_AFTER_EPOCHS ∧
      l'.outboundQueuedSlices ≤ maxOutboundQueueSlices
  queue : l.QueueFits → l'.QueueFits

theorem KeptOrWiped.refl {α : Type} (a : Option α) : KeptOrWiped a a := .inl rfl

theorem KeptOrWiped.trans {α : Type} {a b c : Option α} (hab : KeptOrWiped a b)
    (hbc : KeptOrWiped b c) : KeptOrWiped a c := by
  rcases hbc with rfl | rfl
  · exact hab
  · exact .inr rfl

theorem KeptOrWiped.of_some {α : Type} {a b : Option α} {x : α} (h : KeptOrWiped a b)
    (hb : b = some x) : a = some x := by
  rcases h with rfl | rfl
  · exact hb
  · simp at hb

namespace Moves

variable {l l' l'' : Link}

theorem refl (l : Link) : Moves l l where
  fixed := rfl
  sendKey := .refl _
  recvKey := .refl _
  myEph := .refl _
  myKem := .refl _
  ee := .refl _
  kemSecret := .refl _
  closed := id
  stalled := id
  parted _ := id
  work := ⟨[], by simp⟩
  records := rfl
  bounded := .inl rfl
  queue := id

theorem node (h : Moves l l') : l'.node = l.node := congrArg Fixed.node h.fixed
theorem spec (h : Moves l l') : l'.spec = l.spec := congrArg Fixed.spec h.fixed
theorem root (h : Moves l l') : l'.root = l.root := congrArg Fixed.root h.fixed
theorem contactSecret (h : Moves l l') : l'.contactSecret = l.contactSecret :=
  congrArg Fixed.contactSecret h.fixed
theorem peerId (h : Moves l l') : l'.peerId = l.peerId := congrArg Fixed.peerId h.fixed
theorem authed (h : Moves l l') : l'.authed = l.authed := congrArg Fixed.authed h.fixed
theorem peerSaidGoodbye (h : Moves l l') : l'.peerSaidGoodbye = l.peerSaidGoodbye :=
  congrArg Fixed.peerSaidGoodbye h.fixed
theorem peerEph (h : Moves l l') : l'.peerEph = l.peerEph := congrArg Fixed.peerEph h.fixed
theorem th (h : Moves l l') : l'.th = l.th := congrArg Fixed.th h.fixed
theorem sendEpoch (h : Moves l l') : l'.sendEpoch = l.sendEpoch := congrArg Fixed.sendEpoch h.fixed
theorem sendCtr (h : Moves l l') : l'.sendCtr = l.sendCtr := congrArg Fixed.sendCtr h.fixed
theorem recvEpoch (h : Moves l l') : l'.recvEpoch = l.recvEpoch := congrArg Fixed.recvEpoch h.fixed
theorem recvCtr (h : Moves l l') : l'.recvCtr = l.recvCtr := congrArg Fixed.recvCtr h.fixed
theorem marks (h : Moves l l') : l'.marks = l.marks := congrArg Fixed.marks h.fixed

theorem trans (h : Moves l l') (h' : Moves l' l'') : Moves l l'' where
  fixed := h'.fixed.trans h.fixed
  sendKey := h.sendKey.trans h'.sendKey
  recvKey := h.recvKey.trans h'.recvKey
  myEph := h.myEph.trans h'.myEph
  myKem := h.myKem.trans h'.myKem
  ee := h.ee.trans h'.ee
  kemSecret := h.kemSecret.trans h'.kemSecret
  closed hc := h'.closed (h.closed hc)
  stalled hs := h'.stalled (h.stalled hs)
  parted hc hp := h'.parted (h.closed hc) (h.parted hc hp)
  work := by
    obtain ⟨js, hj, hb⟩ := h.work
    obtain ⟨js', hj', hb'⟩ := h'.work
    exact ⟨js ++ js', by rw [hj', hj, List.append_assoc], by simp [hb, hb']⟩
  records := by
    have := h.records
    have := h'.records
    omega
  bounded := by
    rcases h'.bounded with h2 | h2
    · rw [h2]
      exact h.bounded
    · rw [h.sendEpoch, h.authed] at h2
      exact .inr h2
  queue hq := h'.queue (h.queue hq)

/-- What moves does not read the log. -/
theorem withMarks (h : Moves l l') (m : List Mark) :
    Moves { l with marks := m } { l' with marks := m } where
  fixed := congrArg (fun f : Fixed => { f with marks := m }) h.fixed
  sendKey := h.sendKey
  recvKey := h.recvKey
  myEph := h.myEph
  myKem := h.myKem
  ee := h.ee
  kemSecret := h.kemSecret
  closed := h.closed
  stalled := h.stalled
  parted := h.parted
  work := h.work
  records := h.records
  bounded := h.bounded
  queue hq :=
    have hq' := h.queue ⟨hq.bytes, hq.nonempty, hq.length⟩
    ⟨hq'.bytes, hq'.nonempty, hq'.length⟩

/-- Calls that touch neither the keys nor the chain nor the queues. -/
theorem of_same (fixed : l'.fixed = l.fixed) (keys : l'.sendKey = l.sendKey ∧ l'.recvKey = l.recvKey)
    (eph : l'.myEph = l.myEph ∧ l'.myKem = l.myKem ∧ l'.ee = l.ee ∧ l'.kemSecret = l.kemSecret)
    (flags : l'.closed = l.closed ∧ l'.stalled = l.stalled ∧ l'.parting = l.parting)
    (work : l'.work = l.work) (slices : l'.outboundQueuedSlices = l.outboundQueuedSlices)
    (queue : l'.queue = l.queue ∧ l'.queuedBytes = l.queuedBytes) : Moves l l' where
  fixed := fixed
  sendKey := .inl keys.1
  recvKey := .inl keys.2
  myEph := .inl eph.1
  myKem := .inl eph.2.1
  ee := .inl eph.2.2.1
  kemSecret := .inl eph.2.2.2
  closed := by simp [flags.1]
  stalled := by simp [flags.2.1]
  parted := by simp [flags.1, flags.2.2]
  work := ⟨[], by simp [work]⟩
  records := by simp [work, slices]
  bounded := .inl slices
  queue hq := ⟨by rw [queue.1, queue.2, hq.bytes], by rw [queue.1]; exact hq.nonempty,
    by rw [queue.1]; exact hq.length⟩

end Moves

@[simp] theorem records_append (w : List Job) (j : Job) :
    records (w ++ [j]) = records w + if isRecord j then 1 else 0 := by
  simp [records, List.countP_append, List.countP_cons]

theorem enqueue_moves (l : Link) (j : Job) (hb : j ≠ .boot) (hr : isRecord j = false) :
    Moves l (l.enqueue j) where
  fixed := rfl
  sendKey := .refl _
  recvKey := .refl _
  myEph := .refl _
  myKem := .refl _
  ee := .refl _
  kemSecret := .refl _
  closed := id
  stalled := id
  parted _ := id
  work := ⟨[j], rfl, by simp [Ne.symm hb]⟩
  records := by simp [enqueue, hr]
  bounded := .inl rfl
  queue hq := ⟨hq.bytes, hq.nonempty, hq.length⟩

theorem noteEnd_moves (how : How) (l : Link) : Moves l (l.noteEnd how) :=
  .of_same rfl ⟨rfl, rfl⟩ ⟨rfl, rfl, rfl, rfl⟩ ⟨rfl, rfl, rfl⟩ rfl rfl ⟨rfl, rfl⟩

theorem endLink_moves (farewell defensive : Bool) (l : Link) :
    Moves l (l.endLink farewell defensive) := by
  unfold endLink
  split
  · rename_i hc
    split
    · exact noteEnd_moves _ l
    · refine (noteEnd_moves .abort l).trans ?_
      exact { Moves.refl _ with parted := by simp, queue := fun hq => ⟨hq.bytes, hq.nonempty, hq.length⟩ }
  · rename_i hc
    have h := noteEnd_moves (if farewell then .close else .abort) l
    refine h.trans (Moves.trans ?_ (enqueue_moves _ .farewell (by simp) rfl))
    exact { Moves.refl _ with
      closed := by simp
      parted := by simp [noteEnd, hc]
      queue := fun hq => ⟨hq.bytes, hq.nonempty, hq.length⟩ }

theorem close_moves (l : Link) : Moves l l.close := endLink_moves true false l

theorem abort_moves (defensive : Bool) (l : Link) : Moves l (l.abort defensive) :=
  endLink_moves false defensive l

theorem clearEphemeral_moves (l : Link) : Moves l l.clearEphemeral :=
  { Moves.refl l with
    myEph := .inr rfl
    myKem := .inr rfl
    ee := .inr rfl
    kemSecret := .inr rfl
    queue := fun hq => ⟨hq.bytes, hq.nonempty, hq.length⟩ }

theorem stall_moves (l : Link) : Moves l l.stall := by
  unfold stall
  split
  · exact .refl l
  · refine Moves.trans ?_ (clearEphemeral_moves _)
    exact { Moves.refl l with
      stalled := by simp
      queue := fun hq => ⟨hq.bytes, hq.nonempty, hq.length⟩ }

theorem refuse_moves (l : Link) : Moves l l.refuse := by
  unfold refuse
  split
  · exact abort_moves true l
  · exact stall_moves l

theorem releaseSlot_moves (l : Link) : Moves l l.releaseSlot := by
  unfold releaseSlot
  split
  · exact .refl l
  · exact .of_same rfl ⟨rfl, rfl⟩ ⟨rfl, rfl, rfl, rfl⟩ ⟨rfl, rfl, rfl⟩ rfl rfl ⟨rfl, rfl⟩

theorem teardown_moves (l : Link) : Moves l l.teardown := by
  unfold teardown
  refine Moves.trans ?_ (clearEphemeral_moves _)
  have h : Moves l { l with due := none } :=
    .of_same rfl ⟨rfl, rfl⟩ ⟨rfl, rfl, rfl, rfl⟩ ⟨rfl, rfl, rfl⟩ rfl rfl ⟨rfl, rfl⟩
  refine (h.trans (releaseSlot_moves _)).trans ?_
  exact { Moves.refl _ with
    sendKey := .inr rfl
    recvKey := .inr rfl
    queue := fun hq => ⟨hq.bytes, hq.nonempty, hq.length⟩ }

theorem onChannelClosed_moves (l : Link) : Moves l l.onChannelClosed := by
  unfold onChannelClosed
  split
  · exact .refl l
  · rename_i hc
    have h : Moves l { l with closed := true } :=
      { Moves.refl l with
        closed := by simp
        parted := by simp [hc]
        queue := fun hq => ⟨hq.bytes, hq.nonempty, hq.length⟩ }
    refine ((h.trans (noteEnd_moves .lost _)).trans (teardown_moves _)).trans ?_
    exact .of_same rfl ⟨rfl, rfl⟩ ⟨rfl, rfl, rfl, rfl⟩ ⟨rfl, rfl, rfl⟩ rfl rfl ⟨rfl, rfl⟩

theorem evict_moves (l : Link) : Moves l l.evict := by
  unfold evict
  refine Moves.trans ?_ (abort_moves false _)
  unfold loseSlot
  split
  · exact .refl l
  · exact .of_same rfl ⟨rfl, rfl⟩ ⟨rfl, rfl, rfl, rfl⟩ ⟨rfl, rfl, rfl⟩ rfl rfl ⟨rfl, rfl⟩

theorem onWire_moves (bytes : Bytes) (l : Link) : Moves l (l.onWire bytes) := by
  unfold onWire
  by_cases hc : (l.closed || l.stalled) = true
  · rw [if_pos hc]
    exact .refl l
  · rw [if_neg hc]
    generalize (if l.authed then l.node.maxFrameBytes else MAX_HANDSHAKE_FRAME_BYTES) = cap
    split
    · exact refuse_moves l
    · exact enqueue_moves l _ (by simp) rfl

theorem onWake_moves (t : Nat) (l : Link) : Moves l (l.onWake t) := by
  have same : ∀ d, Moves l { l with due := d } := fun d =>
    .of_same rfl ⟨rfl, rfl⟩ ⟨rfl, rfl, rfl, rfl⟩ ⟨rfl, rfl, rfl⟩ rfl rfl ⟨rfl, rfl⟩
  unfold onWake
  split
  · exact .refl l
  · split
    · exact .refl l
    · split
      · exact same _
      · split
        · have h : Moves l { l with due := none, timedOut := true } :=
            .of_same rfl ⟨rfl, rfl⟩ ⟨rfl, rfl, rfl, rfl⟩ ⟨rfl, rfl, rfl⟩ rfl rfl ⟨rfl, rfl⟩
          exact h.trans (abort_moves false _)
        · split
          · exact same _
          · split
            · exact same _
            · exact (same _).trans (close_moves _)

/-! ### The queues -/

theorem length_le_sum {q : List Bytes} (h : ∀ f ∈ q, f ≠ []) :
    q.length ≤ (q.map List.length).sum := by
  induction q with
  | nil => simp
  | cons f q ih =>
    have hf : 0 < f.length := List.length_pos_iff.2 (h f (by simp))
    have := ih fun g hg => h g (by simp [hg])
    simp only [List.map_cons, List.sum_cons, List.length_cons]
    omega

theorem dropOldest_suffix (maxSlices : Nat) (q : List Bytes) (bytes : Nat) :
    (dropOldest maxSlices q bytes).1 <:+ q := by
  fun_induction dropOldest maxSlices q bytes with
  | case1 f g q bytes h ih => exact ih.trans (List.suffix_cons f (g :: q))
  | case2 f g q bytes h => exact List.suffix_refl _
  | case3 q bytes h => exact List.suffix_refl _

/-- What is left after the oldest frames went: a count of bytes that is still right, and a
queue within its budget or of one frame. -/
theorem dropOldest_spec (maxSlices : Nat) (q : List Bytes) (bytes : Nat)
    (hb : bytes = (q.map List.length).sum) :
    (dropOldest maxSlices q bytes).2 = ((dropOldest maxSlices q bytes).1.map List.length).sum ∧
      ((dropOldest maxSlices q bytes).2 ≤ MAX_QUEUE_BYTES ∨
        (dropOldest maxSlices q bytes).1.length ≤ 1) := by
  fun_induction dropOldest maxSlices q bytes with
  | case1 f g q bytes h ih => exact ih (by simp_all)
  | case2 f g q bytes h =>
    refine ⟨hb, .inl ?_⟩
    by_contra hlt
    exact h (.inl (by omega))
  | case3 q bytes h =>
    refine ⟨hb, .inr ?_⟩
    match q with
    | [] => simp
    | [f] => simp
    | f :: g :: q => exact absurd rfl (h f g q)

theorem send_moves (frame : Bytes) (l : Link) : Moves l (l.send frame) := by
  unfold send
  split
  · exact .refl l
  · split
    · exact .refl l
    · split
      · exact .refl l
      · rename_i hlen
        split
        · rename_i hauthed
          split
          · exact close_moves l
          · rename_i hepoch
            split
            · exact abort_moves false l
            · rename_i hfull
              push Not at hfull
              have hslices : l.outboundQueuedSlices + 1 ≤ maxOutboundQueueSlices := hfull.1
              exact { Moves.refl l with
                work := ⟨[.record frame], rfl, by simp⟩
                records := by simp [enqueue, markTraffic, isRecord]; omega
                bounded := .inr ⟨hauthed, by omega, hslices⟩
                queue := fun hq => ⟨hq.bytes, hq.nonempty, hq.length⟩ }
        · refine { Moves.refl l with queue := fun hq => ?_ }
          obtain ⟨h1, h3⟩ := dropOldest_spec l.node.maxPreAuthQueueSlices (l.queue ++ [frame])
            (l.queuedBytes + frame.length) (by simp [hq.bytes])
          have h2 := dropOldest_suffix l.node.maxPreAuthQueueSlices (l.queue ++ [frame])
            (l.queuedBytes + frame.length)
          have hne : ∀ f ∈ (dropOldest l.node.maxPreAuthQueueSlices (l.queue ++ [frame])
              (l.queuedBytes + frame.length)).1, f ≠ [] := by
            intro f hf
            rcases List.mem_append.1 (h2.subset hf) with hf | hf
            · exact hq.nonempty f hf
            · rw [List.mem_singleton] at hf
              subst hf
              exact fun h0 => hlen (by simp [h0])
          refine ⟨h1, hne, ?_⟩
          rcases h3 with h3 | h3
          · exact (length_le_sum hne).trans (h1 ▸ h3)
          · exact h3.trans (by decide)

theorem takeQueued_moves (l : Link) : Moves l l.takeQueued :=
  { Moves.refl l with queue := fun _ => ⟨rfl, by simp [takeQueued], by simp [takeQueued]⟩ }

/-- Whatever comes from outside is a move. -/
theorem input_moves (i : Input) (l : Link) : Moves l (l.input i) := by
  cases i with
  | send frame => exact send_moves frame l
  | close => exact close_moves l
  | abort => exact abort_moves false l
  | wire bytes => exact onWire_moves bytes l
  | deliver m => exact enqueue_moves l _ (by simp) rfl
  | badFraming => exact refuse_moves l
  | wake t => exact onWake_moves t l
  | channelClosed => exact onChannelClosed_moves l
  | evict => exact evict_moves l
  | takeQueued =>
    have h : Moves l { l with shed := l.shed + l.queue.length } :=
      .of_same rfl ⟨rfl, rfl⟩ ⟨rfl, rfl, rfl, rfl⟩ ⟨rfl, rfl, rfl⟩ rfl rfl ⟨rfl, rfl⟩
    exact h.trans (takeQueued_moves _)
  | realm r => exact .of_same rfl ⟨rfl, rfl⟩ ⟨rfl, rfl, rfl, rfl⟩ ⟨rfl, rfl, rfl⟩ rfl rfl ⟨rfl, rfl⟩

end Link

end SeedTransport
