import SeedTransport.Link.Run
import SeedTransport.Link.Secrets

set_option autoImplicit false

namespace SeedTransport

/-! What a link seals over its whole life: at places a nonce can hold, no empty record but a goodbye
after a deliberate close, and nothing behind that. -/

open Async Async.Prog

/-- The marks that say a record is sealed. -/
def Mark.spoken : Mark → Bool
  | .seals _ _ _ => true
  | .sealed _ _ _ _ => true
  | _ => false

namespace Link

/-- Calls that ended a link of a known peer, the first before the peer ended it, and none for a failure. -/
def Deliberate (ends : List Ending) : Prop :=
  (∀ e ∈ ends, e.how = .close) ∧ ∃ e es, ends = e :: es ∧ e.authed = true ∧ e.peerSaidGoodbye = false

/-- The frames that went out sealed, in order; a goodbye is none. -/
def textsOf (log : List Mark) : List Bytes := ((sealedRecs log).map Rec.text).filter fun f => !f.isEmpty

def recordOf : Job → Option Bytes
  | .record f => some f
  | _ => none

/-- The frames that wait in the chain. -/
def pendingOf (work : List Job) : List Bytes := work.filterMap recordOf

/-- What a link's sending side turns on. -/
structure Sender (l : Link) : Prop where
  loads : l.spec.Loads
  unused : l.authed = false → l.sendCtr = 0 ∧ textsOf l.marks = [] ∧ pendingOf l.work = []
  opened : l.closed = false → l.ends = []
  first : l.closed = true → ∃ e es, l.ends = e :: es ∧ e.authed = l.authed
  parted : l.parting = true → l.closed = true ∧ (∀ e ∈ l.ends, e.how = .close) ∧
    ∀ e ∈ l.ends.head?, e.peerSaidGoodbye = false
  frames : ∀ f, Job.record f ∈ l.work → f ≠ []
  queue : ∀ f ∈ l.queue, f ≠ []
  ordered : Ordered l
  once : l.work.count .farewell ≤ 1
  told : ∀ here ends, Mark.seals here [] ends ∈ l.marks → Deliberate ends
  places : ∀ r ∈ sealedRecs l.marks, r.before.ctr < 2 ^ 32
  said : ∀ r ∈ sealedRecs l.marks, r.text = [] → ∃ here ends, Mark.seals here [] ends ∈ l.marks

/-- Every frame a link took and did not drop or hand on is queued, sealed, in `flight` or in the chain, the
oldest first. -/
structure Account (flight : List Bytes) (l : Link) : Prop where
  shed : l.shed ≤ l.accepted.length
  early : l.authed = false → flight = []
  kept : l.accepted.drop l.shed = l.queue ++ textsOf l.marks ++ flight ++ pendingOf l.work

/-- A link that failed, or ended without a goodbye to say, may leave frames behind. -/
def Counts (flight : List Bytes) (l : Link) : Prop := l.closed = false ∨ l.parting = true → Account flight l

/-- Nothing is to be sealed any more. -/
structure Quiet (l : Link) : Prop where
  closed : l.closed = true
  records : records l.work = 0
  farewell : Job.farewell ∉ l.work

/-- No goodbye has been sealed. -/
structure Sound (l : Link) : Prop extends Sender l where
  plain : ∀ r ∈ sealedRecs l.marks, r.text ≠ []

/-- The goodbye was sealed, behind all records. -/
structure Said (l : Link) : Prop extends Sender l where
  quiet : Quiet l
  account : Account [] l
  last : ∃ rs r, sealedRecs l.marks = rs ++ [r] ∧ r.text = [] ∧ ∀ r' ∈ rs, r'.text ≠ []

/-- The next record has a counter to use, or there will be none. -/
def Fits (l : Link) : Prop :=
  l.sendCtr < l.spec.rekeyAfterFrames ∨ (l.closed = true ∧ l.parting = false) ∨ Quiet l

section Same

variable {l l' : Link}

theorem sealedRecs_told (log : List Mark) : sealedRecs (log.filter Mark.spoken) = sealedRecs log := by
  unfold sealedRecs
  rw [List.filterMap_filter]
  congr 1
  funext m
  cases m <;> simp [sealedOf, Mark.spoken]

theorem seals_told {log : List Mark} {here : Pos} {f : Bytes} {ends : List Ending} :
    Mark.seals here f ends ∈ log.filter Mark.spoken ↔ Mark.seals here f ends ∈ log := by
  simp [List.mem_filter, Mark.spoken]

theorem sealedRecs_same (h : l'.marks.filter Mark.spoken = l.marks.filter Mark.spoken) :
    sealedRecs l'.marks = sealedRecs l.marks := by
  rw [← sealedRecs_told, h, sealedRecs_told]

theorem seals_same (h : l'.marks.filter Mark.spoken = l.marks.filter Mark.spoken) {here : Pos} {f : Bytes}
    {ends : List Ending} : Mark.seals here f ends ∈ l'.marks ↔ Mark.seals here f ends ∈ l.marks := by
  rw [← seals_told, h, seals_told]

theorem textsOf_same (h : l'.marks.filter Mark.spoken = l.marks.filter Mark.spoken) :
    textsOf l'.marks = textsOf l.marks := by
  unfold textsOf
  rw [sealedRecs_same h]

theorem pendingOf_append (work work' : List Job) : pendingOf (work ++ work') = pendingOf work ++ pendingOf work' :=
  List.filterMap_append

theorem pendingOf_length (work : List Job) : (pendingOf work).length = records work := by
  induction work with
  | nil => rfl
  | cons j js ih =>
    have hj : records (j :: js) = records js + if isRecord j then 1 else 0 := List.countP_cons
    rw [hj, ← ih]
    cases j <;> rfl

theorem pendingOf_nil {work : List Job} (h : records work = 0) : pendingOf work = [] :=
  List.length_eq_zero_iff.mp ((pendingOf_length work).trans h)

/-- What the sending side turns on is outside a link's keys. -/
theorem Sender.of_same (h : Sender l) (spec : l'.spec = l.spec) (authed : l'.authed = l.authed)
    (closed : l'.closed = l.closed) (parting : l'.parting = l.parting) (queue : ∀ f ∈ l'.queue, f ≠ [])
    (work : l'.work = l.work) (ctr : l'.sendCtr = l.sendCtr) (ends : l'.ends = l.ends)
    (told : l'.marks.filter Mark.spoken = l.marks.filter Mark.spoken) : Sender l' where
  loads := spec ▸ h.loads
  unused ha := by
    rw [ctr, work, textsOf_same told]
    exact h.unused (authed.symm.trans ha)
  opened hc := ends.trans (h.opened (closed.symm.trans hc))
  first hc := by
    rw [ends, authed]
    exact h.first (closed.symm.trans hc)
  parted hp := by
    rw [ends, closed]
    exact h.parted (parting.symm.trans hp)
  frames := by
    rw [work]
    exact h.frames
  queue := queue
  ordered := h.ordered.of_same closed parting work
  once := by
    rw [work]
    exact h.once
  told here es hm := h.told here es ((seals_same told).mp hm)
  places := by
    rw [sealedRecs_same told]
    exact h.places
  said r hr ht := by
    rw [sealedRecs_same told] at hr
    obtain ⟨here, es, hm⟩ := h.said r hr ht
    exact ⟨here, es, (seals_same told).mpr hm⟩

/-- What the sending side reads of a link. -/
structure Sends where
  spec : Spec
  authed : Bool
  closed : Bool
  parting : Bool
  queue : List Bytes
  work : List Job
  sendCtr : Nat
  ends : List Ending
  spoken : List Mark
  accepted : List Bytes
  shed : Nat

def sends (l : Link) : Sends where
  spec := l.spec
  authed := l.authed
  closed := l.closed
  parting := l.parting
  queue := l.queue
  work := l.work
  sendCtr := l.sendCtr
  ends := l.ends
  spoken := l.marks.filter Mark.spoken
  accepted := l.accepted
  shed := l.shed

/-- What of it the outside sees. -/
def seen (o : Outer) : Sends where
  spec := o.spec
  authed := o.authed
  closed := o.closed
  parting := o.parting
  queue := o.queue
  work := o.work
  sendCtr := o.sendCtr
  ends := o.ends
  spoken := o.told.filter Mark.spoken
  accepted := o.accepted
  shed := o.shed

theorem seen_outer (l : Link) : l.sends = seen l.outer := by
  have hspoken : (l.marks.filter Mark.told).filter Mark.spoken = l.marks.filter Mark.spoken := by
    rw [List.filter_filter]
    congr 1
    funext m
    cases m <;> rfl
  simp [sends, seen, outer, hspoken]

theorem sends_outer {o : Outer} (h : l'.outer = o) : l'.sends = seen o := h ▸ seen_outer l'

theorem Sender.of_sends (h : Sender l) (he : l'.sends = l.sends) : Sender l' :=
  h.of_same (congrArg Sends.spec he) (congrArg Sends.authed he) (congrArg Sends.closed he)
    (congrArg Sends.parting he) (by rw [show l'.queue = l.queue from congrArg Sends.queue he]; exact h.queue)
    (congrArg Sends.work he) (congrArg Sends.sendCtr he) (congrArg Sends.ends he) (congrArg Sends.spoken he)

/-- A job put behind all others. -/
theorem Sender.enqueue (h : Sender l) (j : Job) (hj : j = .farewell → l.closed = true ∧ Job.farewell ∉ l.work)
    (hr : ∀ f, j = .record f → l.closed = false ∧ l.authed = true ∧ f ≠ []) : Sender (l.enqueue j) where
  loads := h.loads
  unused ha := by
    obtain ⟨h1, h2, h3⟩ := h.unused ha
    refine ⟨h1, h2, ?_⟩
    simp only [Link.enqueue, pendingOf_append, h3, List.nil_append]
    cases j with
    | record f => exact absurd ((hr f rfl).2.1.symm.trans ha) (by simp)
    | boot => rfl
    | message m => rfl
    | farewell => rfl
  opened := h.opened
  first := h.first
  parted := h.parted
  frames f hf := by
    obtain hf | hf := List.mem_append.mp hf
    · exact h.frames f hf
    · exact (hr f (List.mem_singleton.mp hf).symm).2.2
  queue := h.queue
  ordered := by
    refine h.ordered.enqueue j (fun he => (hj he).1) fun hrec => ?_
    cases j with
    | record f => exact (hr f rfl).1
    | boot => cases hrec
    | message m => cases hrec
    | farewell => cases hrec
  once := by
    simp only [Link.enqueue, List.count_append, List.count_singleton]
    split
    · next he =>
      rw [List.count_eq_zero.mpr (hj (by simpa using he)).2]
    · exact h.once
  told := h.told
  places := h.places
  said := h.said

theorem Sender.endLink (h : Sender l) (farewell defensive : Bool) : Sender (l.endLink farewell defensive) := by
  unfold Link.endLink
  split
  · next hc =>
    obtain ⟨e, es, he, ha⟩ := h.first hc
    split
    · exact { h with
        opened := fun ho => absurd (hc.symm.trans ho) (by simp)
        first := fun _ => ⟨e, es ++ [⟨.close, l.authed, l.peerSaidGoodbye⟩], by simp [noteEnd, he], ha⟩
        parted := fun hp => by
          obtain ⟨-, hall, hhead⟩ := h.parted hp
          refine ⟨hc, fun x hx => ?_, ?_⟩
          · obtain hx | hx := List.mem_append.mp hx
            · exact hall x hx
            · rw [List.mem_singleton.mp hx]
          · simpa [noteEnd, he] using hhead
        ordered := h.ordered.of_same rfl rfl rfl }
    · exact { h with
        opened := fun ho => absurd (hc.symm.trans ho) (by simp)
        first := fun _ => ⟨e, es ++ [⟨.abort, l.authed, l.peerSaidGoodbye⟩], by simp [noteEnd, he], ha⟩
        parted := fun hp => by cases hp
        ordered := ⟨h.ordered.farewell, h.ordered.last, fun _ => rfl⟩ }
  · next hc =>
    have hopen : l.closed = false := by simpa using hc
    have hnone := h.opened hopen
    have hno : Job.farewell ∉ l.work := fun hf => hc (h.ordered.farewell hf)
    refine Sender.enqueue (l := { l.noteEnd (if farewell then .close else .abort) with
        closed := true
        parting := farewell && !l.peerSaidGoodbye && decide (l.sendEpoch < REJECT_AFTER_EPOCHS)
        closedLocally := true
        aborted := l.aborted || defensive
        effects := l.effects ++ [.onClose] }) ?_ .farewell (fun _ => ⟨rfl, hno⟩) (by simp)
    exact { h with
      opened := fun ho => by cases ho
      first := fun _ => ⟨⟨if farewell then .close else .abort, l.authed, l.peerSaidGoodbye⟩, [],
        by simp [noteEnd, hnone], rfl⟩
      parted := fun hp => by
        simp only [Bool.and_eq_true, Bool.not_eq_true'] at hp
        refine ⟨rfl, ?_, ?_⟩
        · simp [noteEnd, hnone, hp.1.1]
        · simp [noteEnd, hnone, hp.1.2]
      ordered := ⟨fun _ => rfl, h.ordered.last, fun ho => by cases ho⟩ }

theorem Sender.stall (h : Sender l) : Sender l.stall := by
  unfold Link.stall
  split
  · exact h
  · exact h.of_same rfl rfl rfl rfl h.queue rfl rfl rfl rfl

theorem Sender.loseSlot (h : Sender l) : Sender l.loseSlot := by
  unfold Link.loseSlot
  split
  · exact h
  · exact h.of_same rfl rfl rfl rfl h.queue rfl rfl rfl rfl

theorem Sender.lost (h : Sender l) (hopen : l.closed = false) : Sender l.onChannelClosed := by
  have hnone := h.opened hopen
  simp only [onChannelClosed, hopen, Bool.false_eq_true, if_false]
  have hsame : ∀ t : Link, (teardown t).spec = t.spec ∧ (teardown t).authed = t.authed ∧ (teardown t).ends = t.ends ∧
      (teardown t).parting = t.parting ∧ (teardown t).queue = t.queue ∧ (teardown t).sendCtr = t.sendCtr ∧
      (teardown t).marks = t.marks := by
    intro t
    simp only [teardown, clearEphemeral, releaseSlot]
    split <;> exact ⟨rfl, rfl, rfl, rfl, rfl, rfl, rfl⟩
  obtain ⟨hspec, hauthed, hends, hparting, hqueue, hctr, hmarks⟩ := hsame (noteEnd .lost { l with closed := true })
  obtain ⟨-, hclosed, hwork, -, -⟩ := teardown_slots (noteEnd .lost { l with closed := true })
  have hbase : Sender (noteEnd .lost { l with closed := true }) :=
    { h with
      opened := fun ho => by cases ho
      first := fun _ => ⟨⟨.lost, l.authed, l.peerSaidGoodbye⟩, [], by simp [noteEnd, hnone], rfl⟩
      parted := fun hp => by
        have hstill : l.parting = true := hp
        rw [h.ordered.opened hopen] at hstill
        cases hstill
      ordered := ⟨fun _ => rfl, h.ordered.last, fun ho => by cases ho⟩ }
  refine hbase.of_same hspec hauthed hclosed hparting ?_ hwork hctr hends ?_
  · intro f hf
    rw [hqueue] at hf
    exact h.queue f hf
  · rw [hmarks]

theorem Sender.outside (h : Sender l) {i : Input} (ho : Outside i l l') : Sender l' := by
  have same : ∀ {l₁ : Link} {o : Outer}, l₁.outer = o → seen o = seen l.outer → Sender l₁ := by
    intro l₁ o h1 h2
    exact h.of_sends ((sends_outer h1).trans (h2.trans (seen_outer l).symm))
  cases ho with
  | quiet i probes ho => exact same ho rfl
  | message i m => exact h.enqueue _ (fun he => by cases he) fun f he => by cases he
  | record frame hopen hauthed hwhole ho =>
    have hq := h.enqueue (.record frame) (fun he => by cases he) fun f he => by
      cases he
      exact ⟨hopen, hauthed, hwhole⟩
    have hs := sends_outer ho
    have hspoken := (congrArg Sends.spoken hs).trans (congrArg Sends.spoken (seen_outer l)).symm
    exact hq.of_same (congrArg Sends.spec hs) (congrArg Sends.authed hs) (congrArg Sends.closed hs)
      (congrArg Sends.parting hs) (by rw [show l'.queue = l.queue from congrArg Sends.queue hs]; exact h.queue)
      (congrArg Sends.work hs) (congrArg Sends.sendCtr hs) (congrArg Sends.ends hs) hspoken
  | queued frame q hopen hauthed hwhole hkept ho =>
    have hs := sends_outer ho
    have hspoken := (congrArg Sends.spoken hs).trans (congrArg Sends.spoken (seen_outer l)).symm
    refine h.of_same (congrArg Sends.spec hs) (congrArg Sends.authed hs) (congrArg Sends.closed hs)
      (congrArg Sends.parting hs) (fun f hf => ?_) (congrArg Sends.work hs) (congrArg Sends.sendCtr hs)
      (congrArg Sends.ends hs) hspoken
    rw [show l'.queue = q from congrArg Sends.queue hs] at hf
    obtain hf | hf := List.mem_append.mp (hkept.subset hf)
    · exact h.queue f hf
    · rw [List.mem_singleton.mp hf]
      exact hwhole
  | ends i farewell defensive ho => exact (same ho rfl).endLink farewell defensive
  | evicted => exact h.loseSlot.endLink false false
  | stalls i _ => exact h.stall
  | lost hopen => exact h.lost hopen
  | handsOn => exact h.of_same rfl rfl rfl rfl (List.forall_mem_nil _) rfl rfl rfl rfl

/-! ### The frames a link took -/

theorem Account.of_sends {flight : List Bytes} (h : Account flight l) (he : l'.sends = l.sends) :
    Account flight l' := by
  have hspoken : textsOf l'.marks = textsOf l.marks := textsOf_same (congrArg Sends.spoken he)
  simp only [sends, Sends.mk.injEq] at he
  obtain ⟨-, h1, -, -, h2, h3, -, -, -, h4, h5⟩ := he
  constructor
  · rw [h4, h5]
    exact h.shed
  · rw [h1]
    exact h.early
  · rw [h2, h3, h4, h5, hspoken]
    exact h.kept

theorem Account.enqueue {flight : List Bytes} (h : Account flight l) (j : Job) (hj : recordOf j = none) :
    Account flight (l.enqueue j) := by
  refine ⟨h.shed, h.early, ?_⟩
  simp only [Link.enqueue, pendingOf_append]
  simpa [pendingOf, hj] using h.kept

theorem Account.endLink {flight : List Bytes} (h : Account flight l) (farewell defensive : Bool) :
    Account flight (l.endLink farewell defensive) := by
  unfold Link.endLink
  split
  · split
    · exact ⟨h.shed, h.early, h.kept⟩
    · exact ⟨h.shed, h.early, h.kept⟩
  · refine Account.enqueue (l := { l.noteEnd (if farewell then .close else .abort) with
        closed := true
        parting := farewell && !l.peerSaidGoodbye && decide (l.sendEpoch < REJECT_AFTER_EPOCHS)
        closedLocally := true
        aborted := l.aborted || defensive
        effects := l.effects ++ [.onClose] }) ?_ .farewell rfl
    exact ⟨h.shed, h.early, h.kept⟩

theorem Account.handOn {flight : List Bytes} (h : Account flight l) : Account flight l.handOn := by
  have hlen := congrArg List.length h.kept
  simp only [List.length_drop, List.length_append] at hlen
  have hshed := h.shed
  refine ⟨?_, h.early, ?_⟩
  · simp only [Link.handOn, Link.takeQueued]
    omega
  · simp only [Link.handOn, Link.takeQueued, ← List.drop_drop, h.kept]
    simp

theorem Account.outside {flight : List Bytes} (h : Account flight l) (hs : Sender l) {i : Input}
    (ho : Outside i l l') :
    Account flight l' := by
  have same : ∀ {l₁ : Link} {o : Outer}, l₁.outer = o → seen o = seen l.outer → Account flight l₁ := by
    intro l₁ o h1 h2
    exact h.of_sends ((sends_outer h1).trans (h2.trans (seen_outer l).symm))
  cases ho with
  | quiet i probes ho => exact same ho rfl
  | message i m => exact h.enqueue _ rfl
  | record frame hopen hauthed hwhole ho =>
    have hv := sends_outer ho
    have htexts : textsOf l'.marks = textsOf l.marks :=
      textsOf_same ((congrArg Sends.spoken hv).trans (congrArg Sends.spoken (seen_outer l)).symm)
    simp only [sends, seen, outer, Sends.mk.injEq] at hv
    obtain ⟨-, h1, -, -, h2, h3, -, -, -, h4, h5⟩ := hv
    have hshed := h.shed
    constructor
    · rw [h4, h5]
      simp
      omega
    · rw [h1, hauthed]
      simp
    · rw [h2, h3, h4, h5, htexts, pendingOf_append, List.drop_append_of_le_length hshed, h.kept]
      simp [pendingOf, recordOf]
  | queued frame q hopen hauthed hwhole hkept ho =>
    have hv := sends_outer ho
    have htexts : textsOf l'.marks = textsOf l.marks :=
      textsOf_same ((congrArg Sends.spoken hv).trans (congrArg Sends.spoken (seen_outer l)).symm)
    simp only [sends, seen, outer, Sends.mk.injEq] at hv
    obtain ⟨-, h1, -, -, h2, h3, -, -, -, h4, h5⟩ := hv
    obtain ⟨-, hnone, hpending⟩ := hs.unused hauthed
    have hflight := h.early hauthed
    have hk := h.kept
    rw [hnone, hpending, hflight] at hk
    simp only [List.append_nil] at hk
    have hshed := h.shed
    have hlen := congrArg List.length hk
    simp only [List.length_drop] at hlen
    obtain ⟨dropped, hq⟩ := hkept
    have hq' := congrArg List.length hq
    simp only [List.length_append, List.length_singleton] at hq'
    constructor
    · rw [h4, h5]
      simp only [List.length_append, List.length_singleton]
      omega
    · exact fun _ => hflight
    · have hn : (l.queue ++ [frame]).length - q.length = dropped.length := by
        simp only [List.length_append, List.length_singleton]
        omega
      rw [h2, h3, h4, h5, htexts, hnone, hpending, hflight, hn, ← List.drop_drop,
        List.drop_append_of_le_length hshed, hk, ← hq]
      simp
  | ends i farewell defensive ho => exact (same ho rfl).endLink farewell defensive
  | evicted =>
    refine Account.endLink (h.of_sends ?_) false false
    unfold loseSlot
    split <;> rfl
  | stalls i _ =>
    refine h.of_sends ?_
    unfold Link.stall
    split <;> rfl
  | lost hopen =>
    simp only [onChannelClosed, hopen, Bool.false_eq_true, if_false, teardown, clearEphemeral, releaseSlot]
    split <;> exact ⟨h.shed, h.early, h.kept⟩
  | handsOn => exact h.handOn

/-! ### Nothing more to seal -/

theorem Quiet.of_same (h : Quiet l) (hc : l'.closed = l.closed) (hw : l'.work = l.work) : Quiet l' :=
  ⟨hc.trans h.closed, by rw [hw]; exact h.records, by rw [hw]; exact h.farewell⟩

theorem Quiet.enqueue (h : Quiet l) (j : Job) (hr : isRecord j = false) (hf : j ≠ .farewell) :
    Quiet (l.enqueue j) where
  closed := h.closed
  records := by
    have h0 := h.records
    simp only [SeedTransport.Link.records, Link.enqueue, List.countP_append] at h0 ⊢
    simp [h0, hr]
  farewell hm := by
    obtain hm | hm := List.mem_append.mp hm
    · exact h.farewell hm
    · exact hf (List.mem_singleton.mp hm).symm

theorem Quiet.endLink (h : Quiet l) (farewell defensive : Bool) : Quiet (l.endLink farewell defensive) := by
  unfold Link.endLink
  rw [if_pos h.closed]
  split
  · exact h.of_same rfl rfl
  · exact h.of_same rfl rfl

theorem Quiet.stall (h : Quiet l) : Quiet l.stall := by
  unfold Link.stall
  split
  · exact h
  · exact h.of_same rfl rfl

theorem Quiet.outside (h : Quiet l) {i : Input} (ho : Outside i l l') : Quiet l' := by
  have same : ∀ {l₁ : Link} {o : Outer}, l₁.outer = o → o.closed = l.closed → o.work = l.work → Quiet l₁ := by
    rintro l₁ o rfl h1 h2
    exact h.of_same h1 h2
  have shut : l.closed ≠ false := by
    rw [h.closed]
    simp
  cases ho with
  | quiet i probes ho => exact same ho rfl rfl
  | message i m => exact h.enqueue _ rfl (by simp)
  | record frame hopen => exact absurd hopen shut
  | queued frame q hopen => exact absurd hopen shut
  | ends i farewell defensive ho => exact (same ho rfl rfl).endLink farewell defensive
  | evicted =>
    refine Quiet.endLink (h.of_same ?_ ?_) false false
    · unfold loseSlot
      split <;> rfl
    · unfold loseSlot
      split <;> rfl
  | stalls i _ => exact h.stall
  | lost hopen => exact absurd hopen shut
  | handsOn => exact h.of_same rfl rfl

end Same

theorem Outside.queue {i : Input} {l l' : Link} (ho : Outside i l l') (ha : l.authed = true) (hq : l.queue = []) :
    l'.queue = [] := by
  have same : ∀ {l₁ : Link} {o : Outer}, l₁.outer = o → o.queue = l.queue → l₁.queue = [] := by
    rintro l₁ o rfl h1
    exact Eq.trans h1 hq
  have ends : ∀ (t : Link) (f d : Bool), t.queue = [] → (t.endLink f d).queue = [] := by
    intro t f d ht
    unfold endLink
    split
    · split <;> exact ht
    · exact ht
  cases ho with
  | quiet i probes ho => exact same ho rfl
  | message i m => exact hq
  | record frame _ _ _ ho => exact same ho rfl
  | queued frame q _ hauthed => exact absurd (ha.symm.trans hauthed) (by simp)
  | ends i farewell defensive ho => exact ends _ _ _ (same ho rfl)
  | evicted =>
    refine ends _ _ _ ?_
    unfold loseSlot
    split <;> exact hq
  | stalls i _ =>
    unfold Link.stall
    split <;> exact hq
  | lost hopen =>
    simp only [onChannelClosed, hopen, Bool.false_eq_true, if_false, teardown, clearEphemeral, releaseSlot]
    split <;> exact hq
  | handsOn => rfl

/-- `l'` is `l` after some calls from outside. -/
structure Bears (l l' : Link) : Prop where
  moves : Moves l l'
  sender : Sender l → Sender l'
  quiet : Quiet l → Quiet l'
  queue : l.authed = true → l.queue = [] → l'.queue = []
  account : Sender l → ∀ flight, Account flight l → Account flight l'

theorem Bears.refl (l : Link) : Bears l l := ⟨.refl l, id, id, fun _ => id, fun _ _ => id⟩

theorem Bears.trans {l l' l'' : Link} (h : Bears l l') (h' : Bears l' l'') : Bears l l'' :=
  ⟨h.moves.trans h'.moves, h'.sender ∘ h.sender, h'.quiet ∘ h.quiet,
    fun ha hq => h'.queue (h.moves.authed.trans ha) (h.queue ha hq),
    fun hs flight ha => h'.account (h.sender hs) flight (h.account hs flight ha)⟩

theorem input_bears (i : Input) (l : Link) : Bears l (l.input i) :=
  ⟨input_moves i l, fun h => h.outside (input_outside i l), fun h => h.outside (input_outside i l),
    (input_outside i l).queue, fun hs _ h => h.outside hs (input_outside i l)⟩

/-! ### What the steps keep -/

section Steps

variable {flight : List Bytes} {l l' : Link}

theorem Counts.bears (h : Counts flight l) (hs : Sender l) (hb : Bears l l') : Counts flight l' := by
  intro hl'
  refine hb.account hs flight (h ?_)
  by_contra hl
  simp only [not_or, Bool.not_eq_false, Bool.not_eq_true] at hl
  have hclosed := hb.moves.closed hl.1
  have hparted := hb.moves.parted hl.1 hl.2
  simp [hclosed, hparted] at hl'

theorem Counts.of_sends (h : Counts flight l) (he : l'.sends = l.sends) : Counts flight l' := by
  intro hl'
  rw [show l'.closed = l.closed from congrArg Sends.closed he,
    show l'.parting = l.parting from congrArg Sends.parting he] at hl'
  exact (h hl').of_sends he

theorem endLink_marks (farewell defensive : Bool) (l : Link) : (l.endLink farewell defensive).marks = l.marks := by
  unfold endLink
  split
  · split <;> rfl
  · rfl

theorem endLink_authed (farewell defensive : Bool) (l : Link) :
    (l.endLink farewell defensive).authed = l.authed ∧ (l.endLink farewell defensive).queue = l.queue ∧
      (l.endLink farewell defensive).spec = l.spec ∧ (l.endLink farewell defensive).sendCtr = l.sendCtr := by
  unfold endLink
  split
  · split <;> exact ⟨rfl, rfl, rfl, rfl⟩
  · exact ⟨rfl, rfl, rfl, rfl⟩

theorem endLink_closed (farewell defensive : Bool) (l : Link) : (l.endLink farewell defensive).closed = true := by
  unfold endLink
  split
  · next h => split <;> exact h
  · rfl

theorem Counts.endLink (h : Counts flight l) (farewell defensive : Bool) :
    Counts flight (l.endLink farewell defensive) := by
  intro hl'
  refine (h ?_).endLink farewell defensive
  rw [endLink_closed] at hl'
  by_contra hl
  simp only [not_or, Bool.not_eq_false, Bool.not_eq_true] at hl
  unfold Link.endLink at hl'
  rw [if_pos hl.1] at hl'
  cases farewell
  · simp at hl'
  · simp [noteEnd, hl.2] at hl'

theorem Sound.bears (h : Sound l) (hb : Bears l l') : Sound l' :=
  ⟨hb.sender h.toSender, by rw [hb.moves.marks]; exact h.plain⟩

theorem Sound.of_sends (h : Sound l) (he : l'.sends = l.sends) : Sound l' :=
  ⟨h.toSender.of_sends he, by rw [sealedRecs_same (congrArg Sends.spoken he)]; exact h.plain⟩

theorem Sound.endLink (h : Sound l) (farewell defensive : Bool) : Sound (l.endLink farewell defensive) :=
  ⟨h.toSender.endLink farewell defensive, by rw [endLink_marks]; exact h.plain⟩

theorem Said.bears (h : Said l) (hb : Bears l l') : Said l' :=
  ⟨hb.sender h.toSender, hb.quiet h.quiet, hb.account h.toSender [] h.account, by rw [hb.moves.marks]; exact h.last⟩

theorem Said.of_sends (h : Said l) (he : l'.sends = l.sends) : Said l' :=
  ⟨h.toSender.of_sends he, h.quiet.of_same (congrArg Sends.closed he) (congrArg Sends.work he), h.account.of_sends he,
    by rw [sealedRecs_same (congrArg Sends.spoken he)]; exact h.last⟩

theorem Said.endLink (h : Said l) (farewell defensive : Bool) : Said (l.endLink farewell defensive) :=
  ⟨h.toSender.endLink farewell defensive, h.quiet.endLink farewell defensive, h.account.endLink farewell defensive,
    by rw [endLink_marks]; exact h.last⟩

theorem Fits.bears (h : Fits l) (hb : Bears l l') : Fits l' := by
  obtain h | ⟨hc, hp⟩ | h := h
  · exact .inl (by rw [hb.moves.sendCtr, hb.moves.spec]; exact h)
  · exact .inr (.inl ⟨hb.moves.closed hc, hb.moves.parted hc hp⟩)
  · exact .inr (.inr (hb.quiet h))

theorem Fits.of_sends (h : Fits l) (he : l'.sends = l.sends) : Fits l' := by
  have hctr : l'.sendCtr = l.sendCtr := congrArg Sends.sendCtr he
  have hspec : l'.spec = l.spec := congrArg Sends.spec he
  have hclosed : l'.closed = l.closed := congrArg Sends.closed he
  have hparting : l'.parting = l.parting := congrArg Sends.parting he
  unfold Fits
  rw [hctr, hspec, hclosed, hparting]
  exact h.imp id fun h => h.imp id fun h => h.of_same hclosed (congrArg Sends.work he)

theorem Fits.endLink (h : Fits l) (farewell defensive : Bool) : Fits (l.endLink farewell defensive) := by
  obtain ⟨-, -, hspec, hctr⟩ := endLink_authed farewell defensive l
  obtain h | ⟨hc, hp⟩ | h := h
  · exact .inl (by rw [hctr, hspec]; exact h)
  · refine .inr (.inl ⟨endLink_closed farewell defensive l, ?_⟩)
    unfold Link.endLink
    rw [if_pos hc]
    split
    · exact hp
    · rfl
  · exact .inr (.inr (h.endLink farewell defensive))

/-- A link between steps that has not said goodbye. -/
structure Talking (l : Link) : Prop extends Sound l where
  counts : Counts [] l
  fits : Fits l

theorem Talking.bears (h : Talking l) (hb : Bears l l') : Talking l' :=
  ⟨h.toSound.bears hb, h.counts.bears h.toSender hb, h.fits.bears hb⟩

theorem Talking.of_sends (h : Talking l) (he : l'.sends = l.sends) : Talking l' :=
  ⟨h.toSound.of_sends he, h.counts.of_sends he, h.fits.of_sends he⟩

theorem Talking.endLink (h : Talking l) (farewell defensive : Bool) : Talking (l.endLink farewell defensive) :=
  ⟨h.toSound.endLink farewell defensive, h.counts.endLink farewell defensive, h.fits.endLink farewell defensive⟩

end Steps

/-- What others may do meanwhile, where the steps' own invariant has been shown. -/
def bearing (s t : Link) : Prop := Bears s t ∧ Safe s

/-- What holds of a link in every state: its records are accounted for until it says goodbye. -/
def Speaks (l : Link) : Prop := (∃ flight, Sound l ∧ Counts flight l) ∨ Said l

theorem sends_mark {m : Mark} (h : m.spoken = false) (l : Link) : (l.mark m).sends = l.sends := by
  simp [sends, Link.mark, List.filter_append, h]

theorem sends_stall (l : Link) : l.stall.sends = l.sends := by
  unfold Link.stall
  split <;> rfl

theorem sends_same {l l' : Link} (h : l'.outer = l.outer) : l'.sends = l.sends :=
  (sends_outer h).trans (seen_outer l).symm

theorem talking_handshakes : Handshakes bearing (fun _ => Speaks) Talking where
  rely _ _ hr h := h.bears hr.1
  yields _ _ h := .inl ⟨[], h.toSound.of_sends (sends_mark rfl _), h.counts.of_sends (sends_mark rfl _)⟩
  quiet _ _ ho h := h.of_sends (sends_same ho)
  ends f d _ h := h.endLink f d
  stalls l h := h.of_sends (sends_stall l)
  tiers _ _ _ h := h.of_sends rfl
  remembers eph l _ h := h.of_sends ((sends_mark rfl _).trans rfl)

theorem said_acts : Acts bearing (fun _ => Speaks) Said where
  rely _ _ hr h := h.bears hr.1
  yields _ _ h := .inr (h.of_sends (sends_mark rfl _))
  quiet _ _ ho h := h.of_sends (sends_same ho)
  ends f d _ h := h.endLink f d

theorem wp_asks {I : Link → Prop} (hI : Acts bearing (fun _ => Speaks) I) {c : Call} {Q : Bytes → Link → Prop}
    {E : Link → Prop} {s : Link} (h : I s) (hQ : ∀ b t, After c (some b) s t → I t → Q b t)
    (hE : ∀ t, After c none s t → I t → E t) :
    (Prog.call c : LinkProg Bytes).wp (under bearing fun _ => Speaks) Q E s := by
  rw [wp_call]
  refine ⟨hI.yields c s h, fun s' hr => ?_⟩
  have hs' : I s' := hI.rely _ s' hr (hI.marks rfl s h)
  exact ⟨fun b => hQ b _ (.of_rely hr.1.moves) (hI.marks rfl s' hs'),
    hE _ (.of_rely hr.1.moves) (hI.marks rfl s' hs')⟩

/-! ### Sealing one record -/

/-- What a sealed record adds to the frames that went out. -/
def shown (frame : Bytes) : List Bytes := if frame.isEmpty then [] else [frame]

theorem shown_some {frame : Bytes} (h : frame ≠ []) : shown frame = [frame] := by
  cases frame with
  | nil => exact absurd rfl h
  | cons b bs => rfl

theorem textsOf_sealed (log : List Mark) (before after : Pos) (frame ct : Bytes) :
    textsOf (log ++ [.sealed before frame ct after]) = textsOf log ++ shown frame := by
  unfold textsOf shown
  rw [sealedRecs_concat]
  cases frame <;> simp [sealedOf]

/-- A link that is to seal `frame` next, then `flight`, at no counter past `n`. -/
structure Holding (frame : Bytes) (flight : List Bytes) (n : Nat) (l : Link) : Prop extends Sound l where
  authed : l.authed = true
  ctr : l.sendCtr ≤ n
  counts : Counts (shown frame ++ flight) l
  goodbye : frame = [] → Quiet l ∧ Account [] l

/-- It has told so, with what ended it. -/
structure Noted (frame : Bytes) (flight : List Bytes) (n : Nat) (l : Link) : Prop
    extends Holding frame flight n l where
  noted : frame = [] → ∃ here ends, Mark.seals here [] ends ∈ l.marks

/-- It has sealed it. -/
structure Spoke (frame : Bytes) (flight : List Bytes) (n : Nat) (l : Link) : Prop where
  authed : l.authed = true
  ctr : l.sendCtr ≤ n
  fits : l.sendCtr < l.spec.rekeyAfterFrames
  talks : frame ≠ [] → Sound l ∧ Counts flight l
  said : frame = [] → Said l

section Sealing

variable {frame : Bytes} {flight : List Bytes} {n m : Nat} {l l' : Link}

theorem Holding.mono (h : Holding frame flight n l) (hn : n ≤ m) : Holding frame flight m l :=
  { h with ctr := h.ctr.trans hn }

theorem noted_acts (frame : Bytes) (flight : List Bytes) (n : Nat) :
    Acts bearing (fun _ => Speaks) (Noted frame flight n) where
  rely l l' hr h := by
    refine ⟨⟨h.toSound.bears hr.1, hr.1.moves.authed.trans h.authed, ?_,
      h.counts.bears h.toSender hr.1, fun hf => ?_⟩, ?_⟩
    · rw [hr.1.moves.sendCtr]
      exact h.ctr
    · exact ⟨hr.1.quiet (h.goodbye hf).1, hr.1.account h.toSender [] (h.goodbye hf).2⟩
    · rw [hr.1.moves.marks]
      exact h.noted
  yields c l h := .inl ⟨_, h.toSound.of_sends (sends_mark rfl _), h.counts.of_sends (sends_mark rfl _)⟩
  quiet l l' ho h := by
    have he := sends_same ho
    refine ⟨⟨h.toSound.of_sends he, (congrArg Sends.authed he).trans h.authed,
      (congrArg Sends.sendCtr he).le.trans h.ctr, h.counts.of_sends he, fun hf => ?_⟩, fun hf => ?_⟩
    · exact ⟨(h.goodbye hf).1.of_same (congrArg Sends.closed he) (congrArg Sends.work he),
        (h.goodbye hf).2.of_sends he⟩
    · obtain ⟨here, ends, hm⟩ := h.noted hf
      exact ⟨here, ends, (seals_same (congrArg Sends.spoken he)).mpr hm⟩
  ends f d l h := by
    obtain ⟨hauthed, -, -, hctr⟩ := endLink_authed f d l
    refine ⟨⟨h.toSound.endLink f d, hauthed.trans h.authed, hctr.le.trans h.ctr,
      h.counts.endLink f d, fun hf => ⟨(h.goodbye hf).1.endLink f d, (h.goodbye hf).2.endLink f d⟩⟩, ?_⟩
    rw [endLink_marks]
    exact h.noted

theorem Noted.sendTo (h : Noted frame flight n l) (e : Nat) {c : Nat} (key : Option Bytes) (hc : c ≤ m) :
    Noted frame flight m { l with sendEpoch := e, sendCtr := c, sendKey := key } where
  toSender := { h.toSender with
    unused := fun ha => absurd (h.authed.symm.trans ha) (by simp)
    ordered := h.ordered.of_same rfl rfl rfl }
  plain := h.plain
  authed := h.authed
  ctr := hc
  counts hl := ⟨(h.counts hl).shed, (h.counts hl).early, (h.counts hl).kept⟩
  goodbye hf := ⟨(h.goodbye hf).1.of_same rfl rfl, (h.goodbye hf).2.shed, (h.goodbye hf).2.early,
      (h.goodbye hf).2.kept⟩
  noted := h.noted

/-- A record that is sealed moves from the flight to what went out. -/
theorem Noted.sealed (h : Noted frame flight n l) {before : Pos} (after : Pos) (ct : Bytes)
    (hb : before.ctr < 2 ^ 32) (hf : l.sendCtr < l.spec.rekeyAfterFrames) :
    Spoke frame flight n (l.mark (.sealed before frame ct after)) := by
  have hrecs : sealedRecs (l.marks ++ [.sealed before frame ct after]) =
      sealedRecs l.marks ++ [⟨before, frame, after⟩] := by
    rw [sealedRecs_concat]
    rfl
  have hmem : ∀ {here : Pos} {f : Bytes} {ends : List Ending},
      Mark.seals here f ends ∈ l.marks ++ [.sealed before frame ct after] ↔ Mark.seals here f ends ∈ l.marks := by
    simp
  have hsender : Sender (l.mark (.sealed before frame ct after)) :=
    { h.toSender with
      unused := fun ha => absurd (h.authed.symm.trans ha) (by simp)
      ordered := h.ordered.of_same rfl rfl rfl
      told := fun here ends hm => h.told here ends (hmem.mp hm)
      places := fun r hr => by
        simp only [Link.mark] at hr
        rw [hrecs] at hr
        obtain hr | hr := List.mem_append.mp hr
        · exact h.places r hr
        · rw [List.mem_singleton.mp hr]
          exact hb
      said := fun r hr ht => by
        simp only [Link.mark] at hr
        rw [hrecs] at hr
        obtain hr | hr := List.mem_append.mp hr
        · obtain ⟨here, ends, hm⟩ := h.said r hr ht
          exact ⟨here, ends, hmem.mpr hm⟩
        · rw [List.mem_singleton.mp hr] at ht
          obtain ⟨here, ends, hm⟩ := h.noted ht
          exact ⟨here, ends, hmem.mpr hm⟩ }
  refine ⟨h.authed, h.ctr, hf, fun hne => ⟨⟨hsender, ?_⟩, fun hl => ?_⟩, fun he => ?_⟩
  · intro r hr
    simp only [Link.mark] at hr
    rw [hrecs] at hr
    obtain hr | hr := List.mem_append.mp hr
    · exact h.plain r hr
    · rw [List.mem_singleton.mp hr]
      exact hne
  · have hk := h.counts hl
    refine ⟨hk.shed, fun ha => absurd (h.authed.symm.trans ha) (by simp), ?_⟩
    simp only [Link.mark, textsOf_sealed]
    rw [hk.kept]
    simp
  · obtain ⟨hquiet, hk⟩ := h.goodbye he
    refine ⟨hsender, hquiet.of_same rfl rfl, ⟨hk.shed, hk.early, ?_⟩, sealedRecs l.marks,
      ⟨before, frame, after⟩, hrecs,
      he, h.plain⟩
    simp only [Link.mark, textsOf_sealed]
    rw [hk.kept]
    simp [shown, he]

theorem sealHere_speaks {key : Bytes} {Q : Bytes → Link → Prop} {E : Link → Prop} {s : Link}
    (h : Noted frame flight s.sendCtr s) (hc : s.sendCtr < 2 ^ 32)
    (hQ : ∀ ct t, Spoke frame flight (s.sendCtr + 1) t → Q ct t)
    (hE : ∀ t, Holding frame flight (s.sendCtr + 1) t → E t) :
    (sealHere key frame).wp (under bearing fun _ => Speaks) Q E s := by
  unfold sealHere
  rw [wp_bind, wp_get, wp_bind]
  refine wp_asks (noted_acts _ _ _) h (fun ct t ht hh => ?_) fun t ht hh => hE t (hh.toHolding.mono (Nat.le_succ _))
  have hn : Noted frame flight (s.sendCtr + 1) { t with sendCtr := t.sendCtr + 1 } := by
    have := hh.sendTo t.sendEpoch t.sendKey (Nat.succ_le_succ ht.sendCtr.le)
    exact this
  rw [wp_bind, wp_modify, wp_bind, wp_get, wp_ite]
  refine ⟨fun _ => ?_, fun hfew => ?_⟩
  · rw [wp_bind]
    refine wp_mono ((noted_acts frame flight (s.sendCtr + 1)).ratchet _ _ hn) (fun next v hv => ?_)
      fun v hv => hE v hv.toHolding
    rw [wp_bind, wp_modify, wp_bind, wp_modify, wp_pure]
    have hv' := hv.sendTo (v.sendEpoch + 1) (some next) (Nat.zero_le (s.sendCtr + 1))
    exact hQ ct _ (hv'.sealed _ ct hc hv.loads.1)
  · rw [wp_bind, wp_modify, wp_pure]
    exact hQ ct _ (hn.sealed _ ct hc (Nat.lt_of_not_le hfew))

theorem sealFrame_speaks {Q : Bytes → Link → Prop} {E : Link → Prop} {s : Link}
    (h : Holding frame flight s.sendCtr s) (hd : frame = [] → Deliberate s.ends)
    (hc : s.sendKey ≠ none → s.sendCtr < 2 ^ 32)
    (hQ : ∀ ct t, Spoke frame flight (s.sendCtr + 1) t → Q ct t)
    (hE : ∀ t, Holding frame flight (s.sendCtr + 1) t → E t) :
    (sealFrame frame).wp (under bearing fun _ => Speaks) Q E s := by
  unfold sealFrame
  rw [wp_bind, wp_get, wp_bind, wp_need]
  refine ⟨fun key hkey => ?_, fun _ => hE s (h.mono (Nat.le_succ _))⟩
  rw [wp_bind, wp_modify]
  have hrecs : sealedRecs (s.marks ++ [.seals s.sendPos frame s.ends]) = sealedRecs s.marks := by
    simp [sealedRecs_concat, sealedOf]
  have htexts : textsOf (s.marks ++ [.seals s.sendPos frame s.ends]) = textsOf s.marks := by
    unfold textsOf
    rw [hrecs]
  have account : ∀ fl, Account fl s → Account fl (s.mark (.seals s.sendPos frame s.ends)) := by
    intro fl hk
    refine ⟨hk.shed, hk.early, ?_⟩
    simp only [Link.mark, htexts]
    exact hk.kept
  refine sealHere_speaks ⟨⟨⟨{ h.toSender with
    unused := fun ha => absurd (h.authed.symm.trans ha) (by simp)
    ordered := h.ordered.of_same rfl rfl rfl
    told := ?_
    places := fun r hr => h.places r (hrecs ▸ hr)
    said := ?_ }, fun r hr => h.plain r (hrecs ▸ hr)⟩, h.authed, le_rfl, fun hl => account _ (h.counts hl),
    fun hf => ⟨(h.goodbye hf).1.of_same rfl rfl, account _ (h.goodbye hf).2⟩⟩, ?_⟩
    (hc (by simp [hkey])) hQ hE
  · intro here ends hm
    obtain hm | hm := List.mem_append.mp hm
    · exact h.told here ends hm
    · have he := List.mem_singleton.mp hm
      injection he with h1 h2 h3
      rw [h3]
      exact hd h2.symm
  · intro r hr ht
    obtain ⟨here, ends, hm⟩ := h.said r (hrecs ▸ hr) ht
    exact ⟨here, ends, List.mem_append_left _ hm⟩
  · rintro rfl
    exact ⟨s.sendPos, s.ends, by simp [Link.mark]⟩

end Sealing

/-! ### The steps that send -/

/-- An authenticated link with `flight` to seal next, at no counter past `n`. -/
structure Afoot (flight : List Bytes) (n : Nat) (l : Link) : Prop extends Sound l where
  authed : l.authed = true
  ctr : l.sendCtr ≤ n
  counts : Counts flight l
  fits : Fits l

theorem afoot_acts (flight : List Bytes) (n : Nat) : Acts bearing (fun _ => Speaks) (Afoot flight n) where
  rely l l' hr h := ⟨h.toSound.bears hr.1, hr.1.moves.authed.trans h.authed,
    hr.1.moves.sendCtr.le.trans h.ctr, h.counts.bears h.toSender hr.1, h.fits.bears hr.1⟩
  yields c l h := .inl ⟨_, h.toSound.of_sends (sends_mark rfl _), h.counts.of_sends (sends_mark rfl _)⟩
  quiet l l' ho h :=
    have he := sends_same ho
    ⟨h.toSound.of_sends he, (congrArg Sends.authed he).trans h.authed,
      (congrArg Sends.sendCtr he).le.trans h.ctr, h.counts.of_sends he, h.fits.of_sends he⟩
  ends f d l h :=
    have he := endLink_authed f d l
    ⟨h.toSound.endLink f d, he.1.trans h.authed, he.2.2.2.le.trans h.ctr,
      h.counts.endLink f d, h.fits.endLink f d⟩

theorem Afoot.talking {n : Nat} {l : Link} (h : Afoot [] n l) : Talking l := ⟨h.toSound, h.counts, h.fits⟩

/-- A link that fails owes nothing more. -/
theorem Holding.failed {frame : Bytes} {flight : List Bytes} {n : Nat} {l : Link} (h : Holding frame flight n l) :
    Afoot flight n (l.abort false) := by
  have he := endLink_authed false false l
  obtain ⟨hclosed, hparting⟩ := abort_parted false l
  refine ⟨h.toSound.endLink false false, he.1.trans h.authed, he.2.2.2.le.trans h.ctr,
    fun hl => ?_, .inr (.inl ⟨hclosed, hparting⟩)⟩
  simp [hclosed, hparting] at hl

theorem wireRecord_speaks {frame : Bytes} {flight : List Bytes} {Q : Unit → Link → Prop} {E : Link → Prop} {s : Link}
    (h : Afoot (frame :: flight) s.sendCtr s) (hw : frame ≠ []) (hc : s.sendKey ≠ none → s.sendCtr < 2 ^ 32)
    (hQ : ∀ t, Afoot flight (s.sendCtr + 1) t → Q () t) :
    (wireRecord frame).wp (under bearing fun _ => Speaks) Q E s := by
  have hs : Holding frame flight s.sendCtr s := by
    refine ⟨h.toSound, h.authed, le_rfl, ?_, fun he => absurd he hw⟩
    rw [shown_some hw]
    exact h.counts
  unfold wireRecord
  rw [wp_attempt, wp_bind]
  refine sealFrame_speaks hs (fun he => absurd he hw) hc (fun ct t ht => ?_) fun t ht => hQ _ ht.failed
  obtain ⟨hsound, hcounts⟩ := ht.talks hw
  have hafoot : Afoot flight (s.sendCtr + 1) t := ⟨hsound, ht.authed, ht.ctr, hcounts, .inl ht.fits⟩
  refine wp_mono ((afoot_acts _ _).wire ct t hafoot) (fun _ u hu => hQ u hu) fun u hu => hQ _ ?_
  exact (afoot_acts _ _).ends false false u hu

/-- The frames queued before the authentication go out in their order. -/
theorem flush_speaks {frames : List Bytes} {n : Nat} {E : Link → Prop} {s : Link} (h : Afoot frames n s)
    (hn : n + frames.length ≤ 2 ^ 32) (hw : ∀ f ∈ frames, f ≠ []) :
    (flush frames).wp (under bearing fun _ => Speaks) (fun _ => Talking) E s := by
  induction frames generalizing n s with
  | nil => exact h.talking
  | cons frame frames ih =>
    simp only [List.length_cons] at hn
    have hctr := h.ctr
    unfold flush
    rw [wp_bind]
    refine wireRecord_speaks { h with ctr := le_rfl } (hw _ List.mem_cons_self) (fun _ => by omega) fun t ht => ?_
    exact ih ht (by omega) fun f hf => hw f (List.mem_cons_of_mem _ hf)

/-- A link that has just authenticated and is to hand its queue over. -/
structure Entering (l : Link) : Prop extends Talking l where
  authed : l.authed = true
  unsent : l.sendCtr = 0
  silent : textsOf l.marks = []

theorem entering_acts : Acts bearing (fun _ => Speaks) Entering where
  rely l l' hr h := by
    refine ⟨h.toTalking.bears hr.1, hr.1.moves.authed.trans h.authed, hr.1.moves.sendCtr.trans h.unsent, ?_⟩
    rw [hr.1.moves.marks]
    exact h.silent
  yields c l h := talking_handshakes.yields c l h.toTalking
  quiet l l' ho h :=
    have he := sends_same ho
    ⟨h.toTalking.of_sends he, (congrArg Sends.authed he).trans h.authed, (congrArg Sends.sendCtr he).trans h.unsent,
      (textsOf_same (congrArg Sends.spoken he)).trans h.silent⟩
  ends f d l h := by
    obtain ⟨hauthed, -, -, hctr⟩ := endLink_authed f d l
    refine ⟨h.toTalking.endLink f d, hauthed.trans h.authed, hctr.trans h.unsent, ?_⟩
    rw [endLink_marks]
    exact h.silent

/-- The queue is taken up for its flush. -/
theorem Entering.takes {l : Link} (h : Entering l) (hc : l.closed = false) : Afoot l.queue 0 l.takeQueued := by
  have hk := h.counts (.inl hc)
  refine ⟨⟨h.toSender.of_same rfl rfl rfl rfl (List.forall_mem_nil _) rfl rfl rfl rfl, h.plain⟩, h.authed,
    h.unsent.le, fun _ => ⟨hk.shed, fun ha => absurd (h.authed.symm.trans ha) (by simp), ?_⟩, ?_⟩
  · simp only [takeQueued]
    rw [hk.kept]
    simp [h.silent]
  · exact h.fits.imp id fun h => h.imp id fun h => h.of_same rfl rfl

/-- A link in its handshake. -/
def Early (l : Link) : Prop := Talking l ∧ l.authed = false

theorem becomeAuthed_speaks : Leads (under bearing fun _ => Speaks) Early Talking becomeAuthed := by
  rintro s ⟨h, ha⟩
  unfold becomeAuthed
  rw [wp_bind, wp_get, wp_ite]
  refine ⟨fun _ => h, fun hopen => ?_⟩
  have hopen' : s.closed = false := by simpa using hopen
  rw [wp_bind, wp_modify, wp_bind, wp_get]
  have hin : Entering { s with authed := true } := by
    have hk := h.counts (.inl hopen')
    obtain ⟨hctr, htexts, -⟩ := h.unused ha
    refine ⟨⟨⟨{ h.toSender with
      unused := fun ha => by cases ha
      first := fun hc => absurd (hopen'.symm.trans hc) (by simp)
      ordered := h.ordered.of_same rfl rfl rfl }, h.plain⟩, fun _ => ⟨hk.shed, fun ha => (by cases ha), hk.kept⟩, ?_⟩,
      rfl, hctr, htexts⟩
    exact h.fits.imp id fun h => h.imp id fun h => h.of_same rfl rfl
  generalize { s with authed := true } = t at hin
  rw [wp_ite]
  refine ⟨fun _ => hin.toTalking.endLink false false, fun _ => ?_⟩
  rw [wp_bind, wp_modify, wp_bind, wp_modify, wp_bind, wp_call]
  have hmoved : Entering (armIdle (moveTier .authed t.node.maxAuthed t)) :=
    ⟨hin.toTalking.of_sends rfl, hin.authed, hin.unsent, hin.silent⟩
  refine ⟨entering_acts.yields _ _ hmoved, fun s' hr => ?_⟩
  have hs' := entering_acts.rely _ s' hr (entering_acts.marks rfl _ hmoved)
  have hqueue : s'.queue.length ≤ MAX_QUEUE_BYTES := (hr.2.moves hr.1.moves).queue.length
  have hcap : MAX_QUEUE_BYTES ≤ 2 ^ 32 := by decide
  refine ⟨fun b => ?_, (entering_acts.marks rfl s' hs').toTalking⟩
  have hdone := entering_acts.marks (m := .done (.onAuth t.peerId) (some b)) rfl s' hs'
  rw [wp_bind, wp_get, wp_ite]
  refine ⟨fun _ => hdone.toTalking, fun hstill => ?_⟩
  rw [wp_bind, wp_modify]
  exact flush_speaks (hdone.takes (Bool.eq_false_iff.mpr hstill)) (by rw [Nat.zero_add]; exact hqueue.trans hcap)
    hdone.queue

/-! ### The jobs -/

theorem entry_handshakes : Handshakes bearing (fun _ => Speaks) Early where
  rely l l' hr h := ⟨h.1.bears hr.1, hr.1.moves.authed.trans h.2⟩
  yields c l h := talking_handshakes.yields c l h.1
  quiet l l' ho h := ⟨talking_handshakes.quiet l l' ho h.1, (congrArg Outer.authed ho).trans h.2⟩
  ends f d l h := ⟨h.1.endLink f d, (endLink_authed f d l).1.trans h.2⟩
  stalls l h := by
    refine ⟨talking_handshakes.stalls l h.1, ?_⟩
    unfold Link.stall
    split
    · exact h.2
    · exact h.2
  tiers tier max l h := ⟨talking_handshakes.tiers tier max l h.1, h.2⟩
  remembers eph l hn h := ⟨talking_handshakes.remembers eph l hn h.1, h.2⟩

theorem onMessage_speaks (m : Bytes) : Keeps (under bearing fun _ => Speaks) Talking (onMessage m) := by
  have hrefuse : ∀ l, Talking l → Talking l.refuse := by
    intro l hl
    unfold refuse
    split
    · exact hl.endLink false true
    · exact talking_handshakes.stalls l hl
  refine keeps_bind keeps_get fun l => keeps_ite (keeps_pure _) (keeps_bind
    (keeps_modify (talking_handshakes.marks rfl)) fun _ => keeps_attempt ?_ (keeps_modify hrefuse))
  intro s hs
  unfold handle
  rw [wp_bind, wp_get, wp_ite]
  refine ⟨fun _ => ?_, fun hnot => ?_⟩
  · refine talking_handshakes.onRecord (fun l hl => ?_) m s hs
    have hgone : Talking { l with peerSaidGoodbye := true } := hl.of_sends rfl
    exact hgone.endLink true false
  · have hearly : Early s := ⟨hs, by simpa using hnot⟩
    have hQ : ∀ l, Early l → Talking l := fun _ h => h.1
    rw [wp_ite]
    refine ⟨fun _ => entry_handshakes.onMsg2_leads hQ becomeAuthed_speaks m s hearly, fun _ => ?_⟩
    rw [wp_ite]
    exact ⟨fun _ => entry_handshakes.onMsg3_leads hQ becomeAuthed_speaks m s hearly,
      fun _ => (entry_handshakes.onMsg1 m).leads hQ s hearly⟩

/-- What a link says between its steps. -/
def Resting (l : Link) : Prop := Talking l ∨ Said l

/-- A record leaves the chain, and its space is given back. -/
theorem sendRecord_speaks {frame : Bytes} {s : Link} (h : Afoot [frame] s.sendCtr s) (hw : frame ≠ [])
    (hskip : s.closed = true → s.parting = false → Talking s) (hc : s.closed = false ∨ s.parting = true →
      s.sendCtr < 2 ^ 32) :
    (sendRecord frame).wp (under bearing fun _ => Speaks) (fun _ => Talking) Talking s := by
  unfold sendRecord
  rw [wp_ensuring, wp_bind, wp_get, wp_ite]
  refine ⟨fun hgone => ?_, fun hstill => ?_⟩
  · simp only [Bool.and_eq_true, Bool.not_eq_true'] at hgone
    exact (hskip hgone.1 hgone.2).of_sends rfl
  · refine wireRecord_speaks h hw (fun _ => hc ?_) fun t ht => ht.talking.of_sends rfl
    simp only [Bool.and_eq_true, Bool.not_eq_true', not_and, Bool.not_eq_false] at hstill
    cases hcl : s.closed with
    | false => exact .inl rfl
    | true => exact .inr (hstill hcl)

theorem sends_finish (g : Bool) (l : Link) :
    ({ l.teardown with effects := l.teardown.effects ++ [.channelClose g] } : Link).sends = l.sends := by
  simp only [teardown, clearEphemeral, releaseSlot]
  split <;> rfl

/-- The goodbye is the last of a link, if it is said. -/
theorem farewell_speaks {s : Link} (h : Sound s) (hcounts : Counts [] s) (hq : Quiet s)
    (hc : s.parting = true → s.sendCtr < 2 ^ 32) :
    farewell.wp (under bearing fun _ => Speaks) (fun _ => Resting) Resting s := by
  have talks : ∀ (g : Bool) (t : Link), Talking t →
      Resting { t.teardown with effects := t.teardown.effects ++ [.channelClose g] } := fun g t ht =>
    .inl (ht.of_sends (sends_finish g t))
  have done : ∀ (g : Bool) (t : Link), Said t →
      Resting { t.teardown with effects := t.teardown.effects ++ [.channelClose g] } := fun g t ht =>
    .inr (ht.of_sends (sends_finish g t))
  unfold farewell sayGoodbye
  rw [wp_bind, wp_bind, wp_get, wp_ite]
  refine ⟨fun hcond => ?_, fun _ => talks false s ⟨h, hcounts, .inr (.inr hq)⟩⟩
  simp only [Bool.and_eq_true, decide_eq_true_eq] at hcond
  obtain ⟨⟨⟨hp, ha⟩, -⟩, -⟩ := hcond
  have hhold : Holding EMPTY [] s.sendCtr s := ⟨h, ha, le_rfl, hcounts, fun _ => ⟨hq, hcounts (.inr hp)⟩⟩
  have hdeliberate : Deliberate s.ends := by
    obtain ⟨hclosed, hall, hhead⟩ := h.parted hp
    obtain ⟨e, es, he, hauthed⟩ := h.first hclosed
    exact ⟨hall, e, es, he, hauthed.trans ha, hhead e (by simp [he])⟩
  rw [wp_attempt, wp_bind]
  refine sealFrame_speaks hhold (fun _ => hdeliberate) (fun _ => hc hp) (fun ct t ht => ?_) fun t ht => ?_
  · have hsaid := ht.said rfl
    rw [wp_bind]
    refine wp_mono (said_acts.wire ct t hsaid) (fun _ u hu => ?_) fun u hu => done false u hu
    rw [wp_ite]
    refine ⟨fun _ => ?_, fun _ => done true u hu⟩
    rw [wp_bind]
    exact wp_mono (said_acts.call .framerGoodbye u hu) (fun _ v hv => done true v hv) fun v hv => done false v hv
  · obtain ⟨hquiet, hk⟩ := ht.goodbye rfl
    exact talks false t ⟨ht.toSound, fun _ => hk, .inr (.inr hquiet)⟩

section Tail

variable {l : Link} {j : Job} {js : List Job}

/-- What is left of the sending side once a job is taken up. -/
theorem Sender.tail (h : Sender l) (hw : l.work = j :: js) : Sender { l with work := js } :=
  { h with
    unused := fun ha => by
      obtain ⟨h1, h2, h3⟩ := h.unused ha
      refine ⟨h1, h2, ?_⟩
      rw [hw] at h3
      cases j with
      | record f => cases h3
      | boot => exact h3
      | message m => exact h3
      | farewell => exact h3
    frames := fun f hf => h.frames f (by rw [hw]; exact List.mem_cons_of_mem _ hf)
    ordered := by
      refine ⟨fun hf => h.ordered.farewell (by rw [hw]; exact List.mem_cons_of_mem _ hf), ?_, h.ordered.opened⟩
      intro before after he
      exact h.ordered.last (j :: before) after (by rw [hw]; simp only at he; rw [he]; rfl)
    once := by
      have honce := h.once
      rw [hw, List.count_cons] at honce
      simp only
      omega }

theorem Quiet.tail (h : Quiet l) (hw : l.work = j :: js) : Quiet { l with work := js } := by
  refine ⟨h.closed, ?_, fun hf => h.farewell (by rw [hw]; exact List.mem_cons_of_mem _ hf)⟩
  have hrec := h.records
  rw [hw] at hrec
  have hcons : SeedTransport.Link.records (j :: js) =
      SeedTransport.Link.records js + if isRecord j then 1 else 0 := List.countP_cons
  simp only
  omega

theorem Account.tail {flight : List Bytes} (h : Account flight l) (hw : l.work = j :: js) (hj : recordOf j = none) :
    Account flight { l with work := js } := by
  refine ⟨h.shed, h.early, ?_⟩
  have hk := h.kept
  rw [hw] at hk
  simp only [pendingOf, List.filterMap_cons, hj] at hk
  exact hk

theorem Talking.tail (h : Talking l) (hw : l.work = j :: js) (hj : recordOf j = none) :
    Talking { l with work := js } :=
  ⟨⟨h.toSender.tail hw, h.plain⟩, fun hl => (h.counts hl).tail hw hj,
    h.fits.imp id fun hf => hf.imp id fun hf => hf.tail hw⟩

theorem Said.tail (h : Said l) (hw : l.work = j :: js) (hj : recordOf j = none) : Said { l with work := js } :=
  ⟨h.toSender.tail hw, h.quiet.tail hw, h.account.tail hw hj, h.last⟩

/-- The chain of a link that said goodbye holds no record and no farewell. -/
theorem Quiet.head (h : Quiet l) (hw : l.work = j :: js) : recordOf j = none ∧ j ≠ .farewell := by
  refine ⟨?_, fun hf => h.farewell (by rw [hw, hf]; exact List.mem_cons_self)⟩
  have hnil := pendingOf_nil h.records
  rw [hw] at hnil
  cases j with
  | record f => cases hnil
  | boot => rfl
  | message m => rfl
  | farewell => rfl

end Tail

/-- A link that said goodbye takes no more messages. -/
theorem Said.onMessage {s : Link} (hs : Said s) (m : Bytes) :
    (onMessage m).wp (under bearing fun _ => Speaks) (fun _ => Resting) Resting s := by
  unfold Link.onMessage
  rw [wp_bind, wp_get, wp_ite]
  refine ⟨fun _ => .inr hs, fun hopen => ?_⟩
  rw [hs.quiet.closed] at hopen
  exact absurd rfl hopen

theorem body_speaks {l l' : Link} {j : Job} (hi : Idle l) (h : Resting l) (hn : next l = some (j, l')) :
    (body j).wp (under bearing fun _ => Speaks) (fun _ => Resting) Resting l' := by
  obtain ⟨hw, ht⟩ := next_eq hn
  have talks : ∀ {x : LinkProg Unit} {s : Link}, x.wp (under bearing fun _ => Speaks) (fun _ => Talking) Talking s →
      x.wp (under bearing fun _ => Speaks) (fun _ => Resting) Resting s := fun hx =>
    wp_mono hx (fun _ _ ht => .inl ht) fun _ ht => .inl ht
  rw [ht]
  generalize l'.work = js at hw ht
  obtain h | h := h
  · cases j with
    | boot => exact talks (talking_handshakes.boot _ (h.tail hw rfl))
    | message m => exact talks (onMessage_speaks m _ (h.tail hw rfl))
    | record frame =>
      have hauthed : l.authed = true := by
        by_contra hf
        have hnil := (h.unused (by simpa using hf)).2.2
        rw [hw] at hnil
        cases hnil
      have hfits : l.sendCtr < l.spec.rekeyAfterFrames ∨ l.closed = true ∧ l.parting = false := by
        refine h.fits.imp id fun hf => hf.resolve_right fun hq => ?_
        cases (hq.head hw).1
      have hsound : Sound { l with work := js } := ⟨h.toSender.tail hw, h.plain⟩
      have hfits' : Fits { l with work := js } := hfits.imp id .inl
      refine talks (sendRecord_speaks ⟨hsound, hauthed, le_rfl, fun hl => ?_, hfits'⟩ ?_ ?_ ?_)
      · have hk := h.counts hl
        refine ⟨hk.shed, fun ha => absurd (hauthed.symm.trans ha) (by simp), ?_⟩
        have hkept := hk.kept
        rw [hw] at hkept
        simpa [pendingOf, recordOf] using hkept
      · exact h.frames frame (by rw [hw]; exact List.mem_cons_self)
      · intro hclosed hparting
        refine ⟨hsound, fun hl => ?_, hfits'⟩
        obtain hl | hl := hl
        · exact absurd (hclosed.symm.trans hl) (by simp)
        · exact absurd (hparting.symm.trans hl) (by simp)
      · intro hl
        refine (hfits.resolve_right fun hgone => ?_).trans_le h.loads.2
        obtain hopen | hparting := hl
        · exact absurd (hgone.1.symm.trans hopen) (by simp)
        · exact absurd (hgone.2.symm.trans hparting) (by simp)
    | farewell =>
      have hmem : Job.farewell ∈ l.work := by rw [hw]; exact List.mem_cons_self
      have hquiet : Quiet { l with work := js } := by
        refine ⟨h.ordered.farewell hmem, h.ordered.last [] js (by rw [hw]; rfl), fun hf => ?_⟩
        have honce := h.once
        rw [hw, List.count_cons_self] at honce
        have hpos := List.count_pos_iff.mpr hf
        simp only at hpos
        omega
      refine farewell_speaks ⟨h.toSender.tail hw, h.plain⟩ (fun hl => (h.counts hl).tail hw rfl) hquiet fun hp => ?_
      obtain hf | ⟨-, hf⟩ | hf := h.fits
      · exact hf.trans_le h.loads.2
      · exact absurd (hf.symm.trans hp) (by simp)
      · exact absurd hmem hf.farewell
  · obtain ⟨hj, hne⟩ := h.quiet.head hw
    have hs := h.tail hw hj
    have done : ∀ {x : LinkProg Unit}, Keeps (under bearing fun _ => Speaks) Said x →
        x.wp (under bearing fun _ => Speaks) (fun _ => Resting) Resting { l with work := js } := fun hx =>
      wp_mono (hx _ hs) (fun _ _ ht => .inr ht) fun _ ht => .inr ht
    cases j with
    | boot => exact done said_acts.boot
    | message m => exact hs.onMessage m
    | record frame => cases hj
    | farewell => exact absurd rfl hne

/-! ### Runs -/

/-- The outline of the records, with that of all else beside it. -/
def speaking : system.Outline fun _ _ _ => True where
  rely := Bears
  yields c l := Yields c l ∧ Speaks l
  idle l := Idle l ∧ Resting l
  rely_refl := Bears.refl
  rely_trans := Bears.trans
  input_rely _ i l _ _ := input_bears i l
  input_idle i l _ h := ⟨h.1.moves (input_moves i l), h.2.imp (fun h => h.bears (input_bears i l)) fun h =>
    h.bears (input_bears i l)⟩
  yields_stable hb h := by
    refine ⟨⟨h.1.1.moves hb.moves, h.1.2.moves hb.moves⟩, ?_⟩
    obtain ⟨flight, hs, hc⟩ | hs := h.2
    · exact .inl ⟨flight, hs.bears hb, hc.bears hs.toSender hb⟩
    · exact .inr (hs.bears hb)
  body_ok h hn := by
    refine Out.Sat.both (R := Moves) (G := Safe) (fun _ _ hy => hy.1) (fun _ _ hb => hb.moves) (wp_body h.1 hn) ?_
    exact body_speaks h.1 h.2 hn

theorem resting_create (node : Node) (spec : Spec) (realm : Realm) (granted : Bool) (hl : spec.Loads) :
    Resting (create node spec realm granted) := by
  have fresh : ∀ l : Link, l.spec.Loads → l.marks = [] → l.work = [] → l.queue = [] → l.authed = false →
      l.sendCtr = 0 → l.closed = false → l.parting = false → l.ends = [] → l.accepted = [] → l.shed = 0 →
      Talking l := by
    intro l h1 h2 h3 h4 h5 h6 h7 h8 h9 h10 h11
    have hctr : l.sendCtr < l.spec.rekeyAfterFrames := h6.trans_lt h1.1
    refine ⟨⟨⟨h1, fun _ => ⟨h6, ?_, ?_⟩, fun _ => h9, ?_, ?_, ?_, ?_, ⟨?_, ?_, fun _ => h8⟩, ?_, ?_, ?_, ?_⟩, ?_⟩,
      fun _ => ⟨?_, fun _ => rfl, ?_⟩, .inl hctr⟩
    · simp [h2, textsOf, sealedRecs]
    · simp [h3, pendingOf]
    · simp [h7]
    · simp [h8]
    · simp [h3]
    · simp [h4]
    · simp [h3]
    · simp [h3]
    · simp [h3]
    · simp [h2]
    · simp [h2, sealedRecs]
    · simp [h2, sealedRecs]
    · simp [h2, sealedRecs]
    · simp [h11]
    · simp [h10, h11, h2, h3, h4, textsOf, pendingOf, sealedRecs]
  have booted : ∀ l : Link, Talking l → Talking (l.enqueue .boot) := by
    intro l h
    have hsender : Sender (l.enqueue .boot) := h.toSender.enqueue .boot
        (fun he => by cases he) fun f he => by cases he
    exact ⟨⟨hsender, h.plain⟩, fun hl => (h.counts hl).enqueue .boot rfl,
      h.fits.imp id fun hf => hf.imp id fun hf => hf.enqueue .boot rfl (by simp)⟩
  refine .inl ?_
  unfold create
  simp only
  split
  · split
    · exact booted _ (fresh _ hl rfl rfl rfl rfl rfl rfl rfl rfl rfl rfl)
    · exact (fresh _ hl rfl rfl rfl rfl rfl rfl rfl rfl rfl rfl).endLink false false
  · exact booted _ (fresh _ hl rfl rfl rfl rfl rfl rfl rfl rfl rfl rfl)

end Link

namespace LinkMachine

variable {m : LinkMachine}

/-- Every link a run reaches accounts for its records. -/
theorem Reachable.speaks (h : m.Reachable) : Link.Speaks m.world := by
  obtain ⟨node, spec, realm, granted, evs, hl, rfl⟩ := h
  have h : Link.speaking.Holds (start node spec realm granted) :=
    ⟨Link.idle_create node spec realm granted hl, Link.resting_create node spec realm granted hl⟩
  refine (h.run evs (System.admitted_of_all _ (fun _ _ _ => trivial) _ _)).world (fun _ _ hy => hy.2) fun l hi => ?_
  exact hi.2.imp (fun h => ⟨[], h.toSound, h.counts⟩) id

end LinkMachine

end SeedTransport
