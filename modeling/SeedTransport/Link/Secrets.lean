import SeedTransport.Link.Steady
import SeedTransport.Link.Ending

set_option autoImplicit false

namespace SeedTransport

/-! What is left of a link's secrets once it has ended. The farewell wipes them behind every
step of the chain. A lost channel wipes them at once, under a step that may be about to store
another: these are the waits the channel must not be lost in. -/

open Async Async.Prog

namespace Link

/-- None of the secrets of a link is left. -/
structure Bare (l : Link) : Prop where
  sendKey : l.sendKey = none
  recvKey : l.recvKey = none
  ee : l.ee = none
  kemSecret : l.kemSecret = none
  myEph : l.myEph = none
  myKem : l.myKem = none

/-- An accepting link has taken up a msg1 and not answered it yet. -/
def Unanswered (l : Link) : Prop :=
  l.spec.weDialed = false ∧ l.peerEph = none ∧ ∃ m, Mark.took m ∈ l.marks

/-- Behind the answer to `c` a step may still store a secret. -/
def StoresAfter (c : Call) (l : Link) : Prop :=
  match c with
  | .random _ => True
  | .dh _ _ => True
  | .kemKeypair _ => True
  | .kemEncaps _ _ => True
  | .kemDecaps _ _ => True
  | .hash msg =>
    (l.spec.weDialed = true ∧ l.root = none) ∨ l.Unanswered ∨
      LABEL_I2R <:+ msg ∨ LABEL_R2I <:+ msg ∨ LABEL_REKEY <:+ msg
  | _ => l.Unanswered

/-- The chain may still store a secret before it looks at whether the link is open: in the
step that waits, or in the boot of a dialer. -/
def MayStore (waiting : Option Call) (l : Link) : Prop :=
  match waiting with
  | none => l.spec.weDialed = true ∧ Job.boot ∈ l.work
  | some c => l.StoresAfter c

/-- The channel of an open link is not lost while its chain may still store a secret. -/
def LostInTime (waiting : Option Call) (i : Input) (l : Link) : Prop :=
  match i with
  | .channelClosed => l.closed = false → ¬l.MayStore waiting
  | _ => True

/-! ### The chain -/

/-- The farewell belongs to a closed link, and no record waits behind it. -/
structure Ordered (l : Link) : Prop where
  farewell : Job.farewell ∈ l.work → l.closed = true
  last : ∀ before after, l.work = before ++ .farewell :: after → records after = 0
  opened : l.closed = false → l.parting = false

/-- The farewell of a closed link is still to come. -/
def Due (l : Link) : Prop := l.closed = true → Job.farewell ∈ l.work

/-- The link is closed for good, and no record in its chain is to be sealed. -/
structure Gone (l : Link) : Prop where
  closed : l.closed = true
  bare : Bare l
  mute : l.parting = false ∨ records l.work = 0

/-- What the end of a link and its secrets turn on. -/
structure Holdings where
  closed : Bool
  parting : Bool
  work : List Job
  sendKey : Option Bytes
  recvKey : Option Bytes
  ee : Option Bytes
  kemSecret : Option Bytes
  myEph : Option KeyPair
  myKem : Option KeyPair

def holdings (l : Link) : Holdings :=
  ⟨l.closed, l.parting, l.work, l.sendKey, l.recvKey, l.ee, l.kemSecret, l.myEph, l.myKem⟩

section Chain

variable {l l' : Link}

theorem Ordered.of_same (h : Ordered l) (hc : l'.closed = l.closed) (hp : l'.parting = l.parting)
    (hw : l'.work = l.work) : Ordered l' :=
  ⟨by rw [hw, hc]; exact h.farewell, by rw [hw]; exact h.last, by rw [hc, hp]; exact h.opened⟩

theorem Due.of_same (h : Due l) (hc : l'.closed = l.closed) (hw : l'.work = l.work) : Due l' := by
  unfold Due
  rw [hc, hw]
  exact h

theorem Gone.of_same (h : Gone l) (he : l'.holdings = l.holdings) : Gone l' := by
  obtain ⟨hc, hb, ho⟩ := h
  simp only [holdings, Holdings.mk.injEq] at he
  obtain ⟨h1, h2, h3, h4, h5, h6, h7, h8, h9⟩ := he
  refine ⟨h1.trans hc, ⟨h4.trans hb.sendKey, h5.trans hb.recvKey, h6.trans hb.ee,
    h7.trans hb.kemSecret, h8.trans hb.myEph, h9.trans hb.myKem⟩, ?_⟩
  rw [h2, h3]
  exact ho

theorem teardown_bare (l : Link) : Bare l.teardown := by
  constructor <;> simp [teardown, clearEphemeral]

/-- A job put behind all others. -/
theorem Ordered.enqueue (h : Ordered l) (j : Job) (hj : j = .farewell → l.closed = true)
    (hr : isRecord j = true → l.closed = false) : Ordered (l.enqueue j) := by
  refine ⟨fun hf => ?_, fun before after hw => ?_, h.opened⟩
  · rcases List.mem_append.1 hf with hf | hf
    · exact h.farewell hf
    · exact hj (List.mem_singleton.1 hf).symm
  · rcases List.eq_nil_or_concat after with rfl | ⟨after', j', rfl⟩
    · rfl
    · have hw' : l.work ++ [j] = (before ++ .farewell :: after') ++ [j'] := by
        simpa [Link.enqueue] using hw
      obtain ⟨h1, h2⟩ := List.append_inj' hw' rfl
      have h0 := h.last before after' h1
      have hclosed := h.farewell (by rw [h1]; simp)
      obtain rfl : j = j' := by simpa using h2
      have hnot : isRecord j = false := by
        by_contra hf
        have := hr (by simpa using hf)
        simp [hclosed] at this
      simp only [records, List.concat_eq_append, List.countP_append] at h0 ⊢
      simp [h0, hnot]

theorem Ordered.endLink (h : Ordered l) (farewell defensive : Bool) :
    Ordered (l.endLink farewell defensive) := by
  unfold Link.endLink
  split
  · rename_i hc
    split
    · exact h.of_same rfl rfl rfl
    · exact ⟨h.farewell, h.last, fun _ => rfl⟩
  · have h' : Ordered { l.noteEnd (if farewell then .close else .abort) with
        closed := true
        parting := farewell && !l.peerSaidGoodbye && decide (l.sendEpoch < REJECT_AFTER_EPOCHS)
        closedLocally := true
        aborted := l.aborted || defensive
        effects := l.effects ++ [.onClose] } :=
      ⟨fun _ => rfl, h.last, fun hc => by simp at hc⟩
    exact h'.enqueue .farewell (fun _ => rfl) (by simp [isRecord])

theorem Due.endLink (h : Due l) (farewell defensive : Bool) : Due (l.endLink farewell defensive) := by
  unfold Link.endLink
  split
  · split
    · exact h
    · exact h
  · exact fun _ => by simp [enqueue]

theorem Gone.endLink (h : Gone l) (farewell defensive : Bool) :
    Gone (l.endLink farewell defensive) := by
  unfold Link.endLink
  rw [if_pos h.closed]
  split
  · exact h.of_same rfl
  · exact ⟨h.closed, ⟨h.bare.sendKey, h.bare.recvKey, h.bare.ee, h.bare.kemSecret, h.bare.myEph,
      h.bare.myKem⟩, .inl rfl⟩

theorem Gone.stall (h : Gone l) : Gone l.stall := by
  unfold Link.stall
  split
  · exact h
  · exact ⟨h.closed, ⟨h.bare.sendKey, h.bare.recvKey, rfl, rfl, rfl, rfl⟩, h.mute⟩

theorem Ordered.stall (h : Ordered l) : Ordered l.stall := by
  unfold Link.stall
  split
  · exact h
  · exact h.of_same rfl rfl rfl

theorem Due.stall (h : Due l) : Due l.stall := by
  unfold Link.stall
  split
  · exact h
  · exact h

theorem Ordered.outside (h : Ordered l) {i : Input} (ho : Outside i l l') : Ordered l' := by
  have same : ∀ {l₁ : Link} {o : Outer}, l₁.outer = o → o.closed = l.closed →
      o.parting = l.parting → o.work = l.work → Ordered l₁ := by
    rintro l₁ o rfl h1 h2 h3
    exact h.of_same h1 h2 h3
  cases ho with
  | quiet i probes ho => exact same ho rfl rfl rfl
  | message i m => exact h.enqueue _ (by simp) (by simp [isRecord])
  | record frame hopen _ _ ho =>
    exact (h.enqueue (.record frame) (by simp) fun _ => hopen).of_same (congrArg Outer.closed ho)
      (congrArg Outer.parting ho) (congrArg Outer.work ho)
  | queued frame q _ _ _ _ ho => exact same ho rfl rfl rfl
  | ends i farewell defensive ho => exact (same ho rfl rfl rfl).endLink farewell defensive
  | evicted =>
    refine Ordered.endLink (h.of_same ?_ ?_ ?_) false false <;>
    · unfold loseSlot
      split <;> rfl
  | stalls i _ => exact h.stall
  | lost hopen =>
    simp only [onChannelClosed, hopen, Bool.false_eq_true, if_false]
    have hw : (teardown (noteEnd .lost { l with closed := true })).work = l.work := (teardown_slots _).2.2.1
    have hc : (teardown (noteEnd .lost { l with closed := true })).closed = true := (teardown_slots _).2.1
    refine ⟨fun _ => hc, fun before after hw' => h.last before after (hw.symm.trans hw'), fun hc' => ?_⟩
    exact absurd (hc.symm.trans hc') (by simp)
  | handsOn => exact h.of_same rfl rfl rfl

end Chain

/-! ### What the outside spares -/

theorem Gone.moves {l l' : Link} (h : Gone l) (hm : Moves l l')
    (hr : records l'.work = records l.work) : Gone l' := by
  have wiped : ∀ {α : Type} {a b : Option α}, KeptOrWiped a b → a = none → b = none := by
    rintro α a b (rfl | rfl) ha
    · exact ha
    · rfl
  refine ⟨hm.closed h.closed, ⟨wiped hm.sendKey h.bare.sendKey, wiped hm.recvKey h.bare.recvKey,
    wiped hm.ee h.bare.ee, wiped hm.kemSecret h.bare.kemSecret, wiped hm.myEph h.bare.myEph,
    wiped hm.myKem h.bare.myKem⟩, ?_⟩
  rw [hr]
  exact h.mute.imp_left (hm.parted h.closed)

theorem Outside.shut {i : Input} {l l' : Link} (h : Outside i l l') (hc : l.closed = true) :
    records l'.work = records l.work := by
  have same : ∀ {l₁ : Link} {o : Outer}, l₁.outer = o → o.work = l.work →
      records l₁.work = records l.work := by
    rintro l₁ o rfl hw
    exact congrArg records hw
  have ended : ∀ (farewell defensive : Bool) (l₁ : Link), l₁.closed = true → l₁.work = l.work →
      records (l₁.endLink farewell defensive).work = records l.work := by
    intro farewell defensive l₁ hc₁ hw
    unfold endLink
    rw [if_pos hc₁]
    split
    · exact congrArg records hw
    · exact congrArg records hw
  cases h with
  | quiet i probes ho => exact same ho rfl
  | message i m => simp [enqueue, isRecord]
  | record frame hopen _ _ ho => simp [hc] at hopen
  | queued frame q hopen _ _ _ ho => simp [hc] at hopen
  | ends i farewell defensive ho =>
    exact ended farewell defensive _ ((congrArg Outer.closed ho).trans hc) (congrArg Outer.work ho)
  | evicted =>
    refine ended false false _ ?_ ?_
    · unfold loseSlot
      split
      · exact hc
      · exact hc
    · unfold loseSlot
      split <;> rfl
  | stalls i _ =>
    unfold stall
    split <;> rfl
  | lost hopen => simp [hc] at hopen
  | handsOn => rfl

/-- Only a lost channel wipes a link that has no farewell to come. -/
theorem Outside.due {i : Input} {l l' : Link} (h : Outside i l l') (ho : Ordered l) (hd : Due l) :
    Due l' ∨ i = .channelClosed ∧ l.closed = false ∧ Gone l' := by
  have same : ∀ {l₁ : Link} {o : Outer}, l₁.outer = o → o.closed = l.closed →
      l.work <+: o.work → Due l₁ := by
    rintro l₁ o rfl h1 h2 hc
    exact h2.subset (hd (h1.symm.trans hc))
  cases h with
  | quiet i probes ho => exact .inl (same ho rfl (List.prefix_refl _))
  | message i m => exact .inl (same rfl rfl (List.prefix_append _ _))
  | record frame _ _ _ ho => exact .inl (same ho rfl (List.prefix_append _ _))
  | queued frame q _ _ _ _ ho => exact .inl (same ho rfl (List.prefix_refl _))
  | ends i farewell defensive ho =>
    exact .inl ((same ho rfl (List.prefix_refl _)).endLink farewell defensive)
  | evicted =>
    refine .inl (Due.endLink ?_ false false)
    unfold loseSlot
    split
    · exact hd
    · exact hd
  | stalls i _ => exact .inl hd.stall
  | lost hopen =>
    refine .inr ⟨rfl, hopen, ?_⟩
    simp only [onChannelClosed, hopen, Bool.false_eq_true, if_false]
    have hb := teardown_bare (noteEnd .lost { l with closed := true })
    refine ⟨(teardown_slots _).2.1, ⟨hb.sendKey, hb.recvKey, hb.ee, hb.kemSecret, hb.myEph, hb.myKem⟩,
      .inl ?_⟩
    have hp : (teardown (noteEnd .lost { l with closed := true })).parting = l.parting := by
      simp only [teardown, clearEphemeral, releaseSlot]
      split <;> rfl
    exact hp.trans (ho.opened hopen)
  | handsOn => exact .inl hd

theorem Unanswered.moves {l l' : Link} (h : Unanswered l) (hm : Moves l l') : Unanswered l' := by
  obtain ⟨h1, h2, h3⟩ := h
  exact ⟨by rw [hm.spec]; exact h1, hm.peerEph.trans h2, by rw [hm.marks]; exact h3⟩

theorem StoresAfter.moves {c : Call} {l l' : Link} (h : StoresAfter c l) (hm : Moves l l') :
    StoresAfter c l' := by
  cases c with
  | hash msg =>
    refine h.imp (fun h => ?_) (Or.imp_left fun h => h.moves hm)
    rw [hm.spec, hm.root]
    exact h
  | random _ => trivial
  | dh _ _ => trivial
  | kemKeypair _ => trivial
  | kemEncaps _ _ => trivial
  | kemDecaps _ _ => trivial
  | _ => exact Unanswered.moves h hm

/-- `l'` is `l` after calls from outside that lose the channel in time. -/
structure Spares (l l' : Link) : Prop where
  moves : Moves l l'
  ordered : Ordered l → Ordered l'
  shut : l.closed = true → records l'.work = records l.work
  due : Ordered l → Due l →
    Due l' ∨ Gone l' ∧ ∀ c, l.marks.getLast? = some (.asked c) → ¬l.StoresAfter c

theorem Spares.refl (l : Link) : Spares l l := ⟨.refl l, id, fun _ => rfl, fun _ h => .inl h⟩

theorem Spares.trans {l l' l'' : Link} (h : Spares l l') (h' : Spares l' l'') : Spares l l'' := by
  refine ⟨h.moves.trans h'.moves, h'.ordered ∘ h.ordered, fun hc => ?_, fun ho hd => ?_⟩
  · exact (h'.shut (h.moves.closed hc)).trans (h.shut hc)
  · rcases h.due ho hd with hd' | ⟨hg, hc⟩
    · refine (h'.due (h.ordered ho) hd').imp_right fun ⟨hg, hc⟩ => ⟨hg, fun c hlast hs => ?_⟩
      exact hc c (by rw [h.moves.marks]; exact hlast) (hs.moves h.moves)
    · exact .inr ⟨hg.moves h'.moves (h'.shut hg.closed), hc⟩

/-- The call a step waits on is the last thing noted. -/
def Asks (c : Call) (l : Link) : Prop := l.marks.getLast? = some (.asked c)

theorem input_spares {c : Call} {i : Input} {l : Link} (hi : LostInTime (some c) i l)
    (hc : Asks c l) : Spares l (l.input i) := by
  refine ⟨input_moves i l, fun ho => ho.outside (input_outside i l), (input_outside i l).shut, fun ho hd => ?_⟩
  refine ((input_outside i l).due ho hd).imp_right fun ⟨hi', hopen, hg⟩ => ⟨hg, fun c' hlast => ?_⟩
  subst hi'
  obtain rfl : c = c' := by
    unfold Asks at hc
    rw [hc] at hlast
    simpa using hlast
  exact hi hopen

/-- The terms a step waits on. -/
def sparing : Terms Link Call Bytes := under Spares Asks

/-- A link whose step runs: open, or with its farewell still to come. -/
structure Poised (l : Link) : Prop where
  ordered : Ordered l
  booted : Job.boot ∉ l.work
  due : Due l

/-- A link that has ended, or is poised to. -/
structure Settled (l : Link) : Prop where
  ordered : Ordered l
  booted : Job.boot ∉ l.work
  ended : Due l ∨ Gone l

/-- A link at work on a first message: it stores secrets to the end. -/
structure Opening (l : Link) : Prop extends Poised l where
  unanswered : Unanswered l

section Steady

variable {l l' : Link}

theorem Poised.settled (h : Poised l) : Settled l := ⟨h.ordered, h.booted, .inl h.due⟩

theorem Poised.of_same (h : Poised l) (hc : l'.closed = l.closed) (hp : l'.parting = l.parting)
    (hw : l'.work = l.work) : Poised l' :=
  ⟨h.ordered.of_same hc hp hw, by rw [hw]; exact h.booted, h.due.of_same hc hw⟩

theorem Settled.of_poised (h : Poised l) (hc : l'.closed = l.closed) (hp : l'.parting = l.parting)
    (hw : l'.work = l.work) : Settled l' := (h.of_same hc hp hw).settled

theorem Poised.still (h : Poised l) (hs : Still l l') : Poised l' :=
  h.of_same (congrArg Inner.closed hs.inner) (congrArg Inner.parting hs.inner)
    (congrArg Inner.work hs.inner)

theorem Settled.of_same (h : Settled l) (he : l'.holdings = l.holdings) : Settled l' := by
  have hc : l'.closed = l.closed := congrArg Holdings.closed he
  have hw : l'.work = l.work := congrArg Holdings.work he
  exact ⟨h.ordered.of_same hc (congrArg Holdings.parting he) hw, by rw [hw]; exact h.booted,
    h.ended.imp (fun hd => hd.of_same hc hw) fun hg => hg.of_same he⟩

theorem Settled.still (h : Settled l) (hs : Still l l') : Settled l' := by
  refine h.of_same ?_
  have he := hs.inner
  simp only [inner, Inner.mk.injEq] at he
  obtain ⟨-, -, h1, h2, -, h3, -, h4, h5, h6, h7, h8, h9⟩ := he
  simp only [holdings, h1, h2, h3, h4, h5, h6, h7, h8, h9]

theorem Opening.still (h : Opening l) (hs : Still l l') : Opening l' := by
  obtain ⟨h1, h2, m, h3⟩ := h.unanswered
  have hspec : l'.spec = l.spec := congrArg Inner.spec hs.inner
  have hpeer : l'.peerEph = l.peerEph := congrArg Inner.peerEph hs.inner
  exact ⟨h.toPoised.still hs, by rw [hspec]; exact h1, hpeer.trans h2, m, hs.marks.subset h3⟩

theorem booted_moves (h : Job.boot ∉ l.work) (hm : Moves l l') : Job.boot ∉ l'.work := by
  obtain ⟨js, hw, hb⟩ := hm.work
  rw [hw]
  exact fun hmem => (List.mem_append.1 hmem).elim h hb

theorem Settled.spares (h : Settled l) (hr : Spares l l') : Settled l' := by
  refine ⟨hr.ordered h.ordered, booted_moves h.booted hr.moves, ?_⟩
  rcases h.ended with hd | hg
  · exact (hr.due h.ordered hd).imp_right And.left
  · exact .inr (hg.moves hr.moves (hr.shut hg.closed))

/-- In a wait that stores after it, the channel is not lost. -/
theorem Poised.spares (h : Poised l) {c : Call} (hc : StoresAfter c l)
    (hr : Spares (l.mark (.asked c)) l') : Poised l' := by
  have h' := h.still (Still.mark (.asked c) l)
  refine ⟨hr.ordered h'.ordered, booted_moves h'.booted hr.moves, ?_⟩
  rcases hr.due h'.ordered h'.due with hd | ⟨-, hn⟩
  · exact hd
  · refine absurd ?_ (hn c (by simp [Link.mark]))
    have longer : Unanswered l → Unanswered (l.mark (.asked c)) := by
      rintro ⟨h1, h2, m, h3⟩
      exact ⟨h1, h2, m, List.mem_append_left _ h3⟩
    cases c with
    | hash msg => exact hc.imp_right (Or.imp_left longer)
    | random _ => trivial
    | dh _ _ => trivial
    | kemKeypair _ => trivial
    | kemEncaps _ _ => trivial
    | kemDecaps _ _ => trivial
    | _ => exact longer hc

theorem Unanswered.stores (h : Unanswered l) (c : Call) : StoresAfter c l := by
  cases c with
  | hash msg => exact .inr (.inl h)
  | random _ => trivial
  | dh _ _ => trivial
  | kemKeypair _ => trivial
  | kemEncaps _ _ => trivial
  | kemDecaps _ _ => trivial
  | _ => exact h

theorem asks_mark (c : Call) (l : Link) : Asks c (l.mark (.asked c)) := by
  simp [Asks, Link.mark]

theorem settled_steady : Steady Spares Asks Settled where
  yields c l _ := asks_mark c l
  rely _ l _ h hr := (h.still (Still.mark _ l)).spares hr
  still _ _ hs h := h.still hs

theorem opening_steady : Steady Spares Asks Opening where
  yields c l _ := asks_mark c l
  rely c l l' h hr :=
    ⟨h.toPoised.spares (h.unanswered.stores c) hr,
      (h.still (Still.mark _ l)).unanswered.moves hr.moves⟩
  still _ _ hs h := h.still hs

/-- A call behind which a secret is stored. -/
theorem poised_call {c : Call} {s : Link} (h : Poised s) (hc : StoresAfter c s)
    {Q : Bytes → Link → Prop} {E : Link → Prop} (hQ : ∀ b t, Poised t → Q b t)
    (hE : ∀ t, Poised t → E t) : (Prog.call c : LinkProg Bytes).wp sparing Q E s := by
  refine (wp_call c).2 ⟨asks_mark c s, fun t hr => ?_⟩
  have ht : Poised t := h.spares hc hr
  exact ⟨fun b => hQ b _ (ht.still (Still.mark _ t)), hE _ (ht.still (Still.mark _ t))⟩

end Steady

/-! ### The steps that store nothing -/

theorem settled_abort (defensive : Bool) :
    Keeps sparing Settled (Prog.modify (abort defensive) : LinkProg Unit) := by
  refine keeps_modify fun l h => ⟨h.ordered.endLink false defensive, ?_, ?_⟩
  · exact booted_moves h.booted (abort_moves defensive l)
  · exact h.ended.imp (fun hd => hd.endLink false defensive) fun hg => hg.endLink false defensive

theorem Settled.stall {l : Link} (h : Settled l) : Settled l.stall :=
  ⟨h.ordered.stall, booted_moves h.booted (stall_moves l),
    h.ended.imp (fun hd => hd.stall) fun hg => hg.stall⟩

theorem settled_stall : Keeps sparing Settled (Prog.modify Link.stall : LinkProg Unit) :=
  keeps_modify fun _ h => h.stall

theorem Settled.refuse {l : Link} (h : Settled l) : Settled l.refuse := by
  unfold Link.refuse
  split
  · exact settled_abort true l h
  · exact h.stall

theorem settled_quiet {f : Link → Link} (hf : ∀ l, (f l).holdings = l.holdings) :
    Keeps sparing Settled (Prog.modify f : LinkProg Unit) :=
  keeps_modify fun l h => h.of_same (hf l)

theorem settled_signTranscript (th : Bytes) : Keeps sparing Settled (signTranscript th) :=
  settled_steady.signTranscript (settled_abort false) th

theorem settled_sendMsg1 : Keeps sparing Settled sendMsg1 := by
  have h := settled_steady
  refine keeps_bind keeps_get fun l => keeps_bind (keeps_need _) fun myEph =>
    keeps_bind (keeps_need _) fun myKem => ?_
  refine keeps_bind (h.probeContext _ _ _) fun ctx => keeps_bind (h.kdf _ _ _) fun key =>
    keeps_bind (h.call _) fun tag => ?_
  refine keeps_bind keeps_get fun l => keeps_bind (keeps_need _) fun root =>
    keeps_bind (h.call _) fun th => ?_
  exact keeps_bind (settled_quiet fun _ => rfl)
    fun _ => h.wire _

/-! ### The steps that store -/

theorem stores_key {msg : Bytes} (s : Link)
    (h : LABEL_I2R <:+ msg ∨ LABEL_R2I <:+ msg ∨ LABEL_REKEY <:+ msg) : StoresAfter (.hash msg) s :=
  Or.inr (Or.inr h)

/-- A session key is stored while the link is poised, or not at all: a link that has ended
has nothing to derive it from. -/
theorem kdf_session {s : Link} (h : Settled s) {label : Bytes}
    (hl : label = LABEL_I2R ∨ label = LABEL_R2I) {Q : Bytes → Link → Prop}
    (hQ : ∀ b t, Poised t → Q b t) :
    (kdf [s.ee, s.kemSecret] s.th label).wp sparing Q Settled s := by
  unfold kdf
  rw [wp_bind, wp_need]
  refine ⟨fun parts hparts => ?_, fun _ => h⟩
  have hp : Poised s := by
    refine ⟨h.ordered, h.booted, h.ended.resolve_right fun hg => ?_⟩
    simp [hg.bare.ee] at hparts
  rw [wp_bind, wp_get, wp_bind, wp_need]
  refine ⟨fun secret _ => ?_, fun _ => h⟩
  rw [wp_bind, wp_need]
  refine ⟨fun ctx _ => ?_, fun _ => h⟩
  refine poised_call hp (stores_key s ?_) hQ fun t ht => ht.settled
  rcases hl with rfl | rfl
  · exact .inl (List.suffix_append _ _)
  · exact .inr (.inl (List.suffix_append _ _))

theorem settled_derive : Keeps sparing Settled deriveConcealedSession := by
  intro s hs
  unfold deriveConcealedSession
  rw [wp_bind, wp_get, wp_bind]
  refine kdf_session hs (.inl rfl) fun i2r t ht => ?_
  rw [wp_bind, wp_modify, wp_bind, wp_get, wp_bind]
  have first : Poised (if t.spec.weDialed then { t with sendKey := some i2r }
      else { t with recvKey := some i2r }) := by
    split
    · exact ht.of_same rfl rfl rfl
    · exact ht.of_same rfl rfl rfl
  refine kdf_session first.settled (.inr rfl) fun r2i u hu => ?_
  rw [wp_bind, wp_modify, wp_bind, wp_modify, wp_modify]
  have second : Poised (if u.spec.weDialed then { u with recvKey := some r2i }
      else { u with sendKey := some r2i }) := by
    split
    · exact hu.of_same rfl rfl rfl
    · exact hu.of_same rfl rfl rfl
  exact Settled.of_poised second rfl rfl rfl

/-- The ratchet of a link that has ended throws. -/
theorem ratchet_stores {s : Link} (h : Settled s) {k : Option Bytes} (hk : Bare s → k = none)
    {Q : Bytes → Link → Prop} (hQ : ∀ b t, Poised t → Q b t) :
    (ratchet k).wp sparing Q Settled s := by
  unfold ratchet
  rw [wp_bind, wp_need]
  refine ⟨fun key hkey => ?_, fun _ => h⟩
  have hp : Poised s := by
    refine ⟨h.ordered, h.booted, h.ended.resolve_right fun hg => ?_⟩
    simp [hk hg.bare] at hkey
  exact poised_call hp (stores_key s (.inr (.inr (List.suffix_append _ _)))) hQ fun t ht => ht.settled

theorem settled_sealFrame (frame : Bytes) : Keeps sparing Settled (sealFrame frame) := by
  have marks : ∀ f : Link → Mark, Keeps sparing Settled (Prog.modify fun l => l.mark (f l) : LinkProg Unit) :=
    fun f => settled_steady.quiet fun l => Still.mark (f l) l
  refine keeps_bind keeps_get fun l => keeps_bind (keeps_need _) fun key =>
    keeps_bind (marks _) fun _ => keeps_bind keeps_get fun l =>
    keeps_bind (settled_steady.call _) fun ct => keeps_bind
      (settled_quiet fun _ => rfl) fun _ =>
    keeps_get_bind fun s hs => ?_
  rw [wp_ite]
  refine ⟨fun _ => ?_, fun _ => keeps_bind (marks _) (fun _ => keeps_pure _) s hs⟩
  rw [wp_bind]
  refine ratchet_stores hs (fun hb => hb.sendKey) fun next t ht => ?_
  rw [wp_bind, wp_modify]
  exact keeps_bind (marks _) (fun _ => keeps_pure _) _ (Settled.of_poised ht rfl rfl rfl)

theorem settled_wireRecord (frame : Bytes) : Keeps sparing Settled (wireRecord frame) :=
  keeps_attempt (keeps_bind (settled_sealFrame frame) fun _ => settled_steady.wire _)
    (settled_abort false)

theorem settled_flush (frames : List Bytes) : Keeps sparing Settled (flush frames) := by
  induction frames with
  | nil => exact keeps_pure _
  | cons frame frames ih => exact keeps_bind (settled_wireRecord frame) fun _ => ih

theorem settled_becomeAuthed : Keeps sparing Settled becomeAuthed := by
  refine keeps_bind keeps_get fun l => keeps_ite (keeps_pure _) ?_
  refine keeps_bind (settled_quiet fun _ => rfl) fun _ =>
    keeps_bind keeps_get fun l => keeps_ite (settled_abort false) ?_
  refine keeps_bind (settled_quiet fun _ => rfl) fun _ =>
    keeps_bind (settled_quiet fun _ => rfl) fun _ =>
    keeps_bind (settled_steady.call _) fun _ => keeps_bind keeps_get fun l =>
    keeps_ite (keeps_pure _) ?_
  exact keeps_bind (settled_quiet fun _ => rfl) fun _ =>
    settled_flush _

theorem settled_sendRecord (frame : Bytes) : Keeps sparing Settled (sendRecord frame) := by
  refine keeps_ensuring (keeps_bind keeps_get fun l => keeps_ite (keeps_pure _)
    (settled_wireRecord frame)) fun l hl => ?_
  exact hl.of_same rfl

theorem settled_advanceRecv : Keeps sparing Settled advanceRecv := by
  refine keeps_bind (settled_quiet fun _ => rfl) fun _ =>
    keeps_get_bind fun s hs => ?_
  rw [wp_ite]
  refine ⟨fun _ => ?_, fun _ => hs⟩
  rw [wp_bind]
  refine ratchet_stores hs (fun hb => hb.recvKey) fun next t ht => ?_
  rw [wp_modify]
  exact Settled.of_poised ht rfl rfl rfl

theorem settled_onRecord (body : Bytes) : Keeps sparing Settled (onRecord body) := by
  refine keeps_bind keeps_get fun l => keeps_ite (settled_abort true) (keeps_ite (settled_abort false)
    (keeps_bind (keeps_need _) fun key => keeps_bind (settled_steady.aeadDec _ _ _) fun r => ?_))
  cases r with
  | none => exact settled_abort true
  | some pt =>
    refine keeps_bind (settled_quiet fun _ => rfl) fun _ =>
      keeps_bind settled_advanceRecv fun _ =>
      keeps_bind (settled_steady.quiet fun l => Still.mark _ l) fun _ => keeps_ite ?_ ?_
    · refine keeps_bind (settled_quiet fun _ => rfl) fun _ =>
        keeps_modify fun l h => ⟨h.ordered.endLink true false, ?_, ?_⟩
      · exact booted_moves h.booted (close_moves l)
      · exact h.ended.imp (fun hd => hd.endLink true false) fun hg => hg.endLink true false
    · exact keeps_bind keeps_get fun l => keeps_bind (settled_steady.call _) fun _ => keeps_pure _

/-- Nothing moves but what a step stores. -/
structure Stored (l l' : Link) : Prop where
  closed : l'.closed = l.closed
  parting : l'.parting = l.parting
  work : l'.work = l.work
  spec : l'.spec = l.spec
  peerEph : l'.peerEph = l.peerEph
  marks : l'.marks = l.marks

theorem Poised.stored {l l' : Link} (h : Poised l) (hs : Stored l l') : Poised l' :=
  h.of_same hs.closed hs.parting hs.work

theorem Opening.stored {l l' : Link} (h : Opening l) (hs : Stored l l') : Opening l' := by
  refine ⟨h.toPoised.stored hs, ?_⟩
  unfold Unanswered
  rw [hs.spec, hs.peerEph, hs.marks]
  exact h.unanswered

/-- The key pairs are made in waits that store after them. -/
theorem keeps_ensureKeys {I : Link → Prop}
    (hcall : ∀ c, (∀ l, StoresAfter c l) → Keeps sparing I (Prog.call c : LinkProg Bytes))
    (hset : ∀ l l', Stored l l' → I l → I l') : Keeps sparing I ensureKeys := by
  refine keeps_bind (keeps_bind keeps_get fun l => keeps_ite ?_ (keeps_pure _)) fun _ =>
    keeps_bind keeps_get fun l => keeps_ite ?_ (keeps_pure _)
  · refine keeps_bind (keeps_bind (hcall _ fun _ => trivial) fun sk =>
      keeps_bind (keeps_bind (hcall _ fun _ => trivial) fun _ => keeps_pure _) fun r =>
      keeps_bind (keeps_need _) fun _ => keeps_pure _) fun pair => ?_
    exact keeps_modify fun l h => hset l _ ⟨rfl, rfl, rfl, rfl, rfl, rfl⟩ h
  · refine keeps_bind (hcall _ fun _ => trivial) fun seed =>
      keeps_bind (keeps_bind (hcall _ fun _ => trivial) fun r => keeps_ite keeps_fail (keeps_pure _))
        fun pair => ?_
    exact keeps_modify fun l h => hset l _ ⟨rfl, rfl, rfl, rfl, rfl, rfl⟩ h

theorem opening_ensureKeys : Keeps sparing Opening ensureKeys :=
  keeps_ensureKeys (fun c _ => opening_steady.call c) fun _ _ hs h => h.stored hs

theorem poised_ensureKeys : Keeps sparing Poised ensureKeys :=
  keeps_ensureKeys (fun _ hc s h => poised_call h (hc s) (fun _ _ ht => ht) fun _ ht => ht)
    fun _ _ hs h => h.stored hs

/-- From an invariant a step keeps to what is wanted of its end. -/
theorem wp_of_keeps {α : Type} {I : Link → Prop} {x : LinkProg α} (hx : Keeps sparing I x) {s : Link}
    (hs : I s) {Q : α → Link → Prop} {E : Link → Prop} (hQ : ∀ a t, I t → Q a t)
    (hE : ∀ t, I t → E t) : x.wp sparing Q E s := wp_mono (hx s hs) hQ hE

/-- What `answerMsg1` does once it has stored the last of its secrets. -/
theorem settled_msg2 (w1 ct : Bytes) : Keeps sparing Settled (do
    let l ← get
    let root ← need l.root
    let h1 ← Link.hash (root ++ w1)
    let l ← get
    let myEph ← need l.myEph
    let head := myEph.publicKey.take EPH_LEN ++ ct
    let hs ← Link.hash (h1 ++ head)
    let sig ← signTranscript hs
    match sig with
    | none => return ()
    | some sig =>
      let l ← get
      let key ← kdf [l.ee, l.kemSecret] (some hs) LABEL_M2
      let tail ← sealZero key sig
      let w2 := head ++ tail
      let th ← Link.hash (h1 ++ w2)
      modify fun l => { l with th := some th }
      Link.wire w2 : LinkProg Unit) := by
  have h := settled_steady
  refine keeps_bind keeps_get fun l => keeps_bind (keeps_need _) fun root =>
    keeps_bind (h.call _) fun h1 => keeps_bind keeps_get fun l => keeps_bind (keeps_need _) fun myEph =>
    keeps_bind (h.call _) fun hs => keeps_bind (settled_signTranscript _) fun sig => ?_
  cases sig with
  | none => exact keeps_pure _
  | some sig =>
    exact keeps_bind keeps_get fun l => keeps_bind (h.kdf _ _ _) fun key =>
      keeps_bind (h.call _) fun tail => keeps_bind (h.call _) fun th =>
      keeps_bind (settled_quiet fun _ => rfl) fun _ => h.wire _

theorem opening_answerMsg1 (w1 ephI kemPkI : Bytes) {s : Link} (hs : Opening s) :
    (answerMsg1 w1 ephI kemPkI).wp sparing (fun _ => Settled) Settled s := by
  have done : ∀ t, Opening t → Settled t := fun t ht => ht.toPoised.settled
  unfold answerMsg1
  rw [wp_bind]
  refine wp_of_keeps opening_ensureKeys hs (fun _ t ht => ?_) done
  rw [wp_bind, wp_get, wp_bind, wp_need]
  refine ⟨fun myEph _ => ?_, fun _ => done t ht⟩
  rw [wp_bind]
  refine wp_of_keeps (keeps_bind (opening_steady.call _) fun _ => keeps_pure _) ht (fun dh t ht => ?_) done
  cases dh with
  | none => exact (done t ht).stall
  | some x =>
    rw [wp_bind, wp_modify, wp_bind]
    have hee : Opening { t with ee := some x } := ht.stored ⟨rfl, rfl, rfl, rfl, rfl, rfl⟩
    refine wp_of_keeps (opening_steady.call _) hee (fun coins u hu => ?_) done
    rw [wp_bind]
    refine wp_of_keeps (keeps_bind (opening_steady.call _) fun _ => keeps_pure _) hu (fun kem v hv => ?_) done
    cases kem with
    | none => exact (done v hv).stall
    | some ctss =>
      rw [wp_bind, wp_modify]
      exact settled_msg2 w1 ctss.1 _ (Settled.of_poised hv.toPoised rfl rfl rfl)

theorem opening_onMsg1 (w1 : Bytes) {s : Link} (hs : Opening s) :
    (onMsg1 w1).wp sparing (fun _ => Settled) Settled s := by
  have done : ∀ t, Opening t → Settled t := fun t ht => ht.toPoised.settled
  unfold onMsg1
  rw [wp_ite]
  refine ⟨fun _ => (done s hs).stall, fun _ => ?_⟩
  simp only
  rw [wp_bind]
  refine wp_of_keeps (keeps_attempt (keeps_bind opening_steady.acceptSecrets fun _ => keeps_pure _)
    (keeps_pure _)) hs (fun secrets t ht => ?_) done
  cases secrets with
  | none => exact (done t ht).stall
  | some secrets =>
    simp only
    rw [wp_bind, wp_modify, wp_bind]
    refine wp_of_keeps (opening_steady.probeContext _ _ _) (ht.still (Still.mark _ t)) (fun ctx u hu => ?_) done
    rw [wp_bind]
    refine wp_of_keeps (opening_steady.tryProbe _ _ _) hu (fun proved v hv => ?_) done
    rw [wp_ite]
    refine ⟨fun _ => (done v hv).stall, fun _ => ?_⟩
    rw [wp_bind, wp_get, wp_ite]
    refine ⟨fun _ => (done v hv).stall, fun _ => ?_⟩
    rw [wp_ite]
    refine ⟨fun _ => (done v hv).stall, fun _ => ?_⟩
    rw [wp_bind, wp_modify, wp_bind, wp_modify, wp_bind, wp_modify]
    refine opening_answerMsg1 _ _ _ (hv.still ⟨rfl, ?_⟩)
    exact List.prefix_append _ _

theorem settled_answerMsg2 (w2 : Bytes) : Keeps sparing Settled (answerMsg2 w2) := by
  have h := settled_steady
  refine keeps_bind keeps_get fun l => keeps_bind (keeps_need _) fun th =>
    keeps_bind (h.call _) fun h2 => keeps_bind (settled_signTranscript _) fun sig => ?_
  cases sig with
  | none => exact keeps_pure _
  | some sig =>
    refine keeps_bind keeps_get fun l => keeps_bind (h.kdf _ _ _) fun key =>
      keeps_bind (h.call _) fun w3 => keeps_bind (h.call _) fun th =>
      keeps_bind (settled_quiet fun _ => rfl) fun _ =>
      keeps_bind (keeps_attempt (keeps_bind settled_derive fun _ => keeps_pure _)
        (keeps_bind (settled_abort false) fun _ => keeps_pure _)) fun derived => ?_
    exact keeps_ite (keeps_bind (h.wire _) fun _ => settled_becomeAuthed) (keeps_pure _)

/-- What `onMsg2` does once it has stored the last secret of its own. -/
def checkMsg2 (w2 head : Bytes) : LinkProg Unit := do
  let l ← get
  let th ← need l.th
  let hs ← Link.hash (th ++ head)
  let l ← get
  let key ← kdf [l.ee, l.kemSecret] (some hs) LABEL_M2
  let r ← openZero key (w2.drop (EPH_LEN + KEM_CT_LEN))
  match r with
  | none => modify stall
  | some sig =>
    let l ← get
    let idR := l.spec.dialedPeerId
    if idR = l.node.ownPk then modify (abort false)
    else
      let root ← need l.root
      let good ← verify idR sig (channelIdentityMessage root hs idR)
      if !good then modify (abort true)
      else if l.spec.lint && !l.node.admits idR then modify (abort true)
      else
        modify fun l => { l with peerPubkey := some idR, peerId := idR }
        answerMsg2 w2

theorem settled_checkMsg2 (w2 head : Bytes) : Keeps sparing Settled (checkMsg2 w2 head) := by
  have h := settled_steady
  refine keeps_bind keeps_get fun l => keeps_bind (keeps_need _) fun th =>
    keeps_bind (h.call _) fun hs => keeps_bind keeps_get fun l => keeps_bind (h.kdf _ _ _) fun key =>
    keeps_bind (h.aeadDec _ _ _) fun r => ?_
  cases r with
  | none => exact settled_stall
  | some sig =>
    refine keeps_bind keeps_get fun l => keeps_ite (settled_abort false) (keeps_bind (keeps_need _)
      fun root => keeps_bind (h.verify _ _ _) fun good => keeps_ite (settled_abort true)
      (keeps_ite (settled_abort true) ?_))
    exact keeps_bind (settled_quiet fun _ => rfl)
      fun _ => settled_answerMsg2 w2

theorem poised_onMsg2 (w2 : Bytes) {s : Link} (hs : Poised s) :
    (onMsg2 w2).wp sparing (fun _ => Settled) Settled s := by
  have done : ∀ t, Poised t → Settled t := fun t ht => ht.settled
  unfold onMsg2
  rw [wp_ite]
  refine ⟨fun _ => hs.settled.stall, fun _ => ?_⟩
  simp only
  rw [wp_bind, wp_get, wp_bind, wp_need]
  refine ⟨fun myEph _ => ?_, fun _ => hs.settled⟩
  simp only [scalarmult]
  rw [wp_bind, wp_bind]
  refine poised_call (c := .dh _ _) hs trivial (fun dh t ht => ?_) done
  rw [wp_pure]
  cases okTail dh with
  | none => exact ht.settled.stall
  | some x =>
    simp only
    rw [wp_bind, wp_modify, wp_bind, wp_get, wp_bind, wp_need]
    have hee : Poised { t with ee := some x } := ht.of_same rfl rfl rfl
    refine ⟨fun myKem _ => ?_, fun _ => hee.settled⟩
    simp only [kemDecaps]
    rw [wp_bind, wp_bind]
    refine poised_call (c := .kemDecaps _ _) hee trivial (fun kem u hu => ?_) done
    rw [wp_pure]
    split
    · exact hu.settled.stall
    · rw [wp_bind, wp_modify]
      exact settled_checkMsg2 w2 _ _ (Settled.of_poised hu rfl rfl rfl)

theorem settled_onMsg3 (w3 : Bytes) : Keeps sparing Settled (onMsg3 w3) := by
  have h := settled_steady
  refine keeps_ite settled_stall (keeps_bind keeps_get fun l => keeps_bind (h.kdf _ _ _) fun key =>
    keeps_bind keeps_get fun l => keeps_bind (keeps_need _) fun th =>
    keeps_bind (settled_steady.openIdentity _ _ _) fun id => ?_)
  cases id with
  | none => exact settled_stall
  | some idI =>
    refine keeps_bind keeps_get fun l => keeps_ite (settled_abort true) ?_
    refine keeps_bind (settled_quiet fun _ => rfl) fun _ =>
      keeps_bind (h.call _) fun th' =>
      keeps_bind (settled_quiet fun _ => rfl) fun _ =>
      keeps_bind (keeps_attempt (keeps_bind settled_derive fun _ => keeps_pure _)
        (keeps_bind settled_stall fun _ => keeps_pure _)) fun derived => ?_
    exact keeps_ite settled_becomeAuthed (keeps_pure _)

/-! ### The jobs -/

theorem settled_onMessage (m : Bytes) : Keeps sparing Settled (onMessage m) := by
  refine keeps_get_bind fun s hs => ?_
  rw [wp_ite]
  refine ⟨fun _ => hs, fun hopen => ?_⟩
  simp only [Bool.or_eq_true, not_or, Bool.not_eq_true] at hopen
  rw [wp_bind, wp_modify, wp_attempt]
  have hs' := hs.still (Still.mark (.took m) s)
  have hp : Poised (s.mark (.took m)) :=
    ⟨hs'.ordered, hs'.booted, fun hc => absurd (hopen.1.symm.trans hc) (by simp)⟩
  have refused : ∀ t, Settled t →
      (Prog.modify Link.refuse : LinkProg Unit).wp sparing (fun _ => Settled) Settled t :=
    fun t ht => ht.refuse
  unfold handle
  rw [wp_bind, wp_get, wp_ite]
  refine ⟨fun _ => wp_of_keeps (settled_onRecord m) hs' (fun _ _ ht => ht) refused, fun _ => ?_⟩
  rw [wp_ite]
  refine ⟨fun _ => wp_mono (poised_onMsg2 m hp) (fun _ _ ht => ht) refused, fun hd => ?_⟩
  rw [wp_ite]
  refine ⟨fun _ => wp_of_keeps (settled_onMsg3 m) hs' (fun _ _ ht => ht) refused, fun hf => ?_⟩
  refine wp_mono (opening_onMsg1 m ⟨hp, by simpa using hd, by simpa using hf, m, ?_⟩)
    (fun _ _ ht => ht) refused
  simp [Link.mark]

/-- The boot of a dialer makes its keys first; an acceptor's stores nothing. -/
theorem settled_boot {s : Link} (hs : Settled s)
    (hd : s.spec.weDialed = true → s.root = none ∧ Due s) :
    boot.wp sparing (fun _ => Settled) Settled s := by
  have failed : ∀ t, Settled t →
      (Prog.modify (abort false) : LinkProg Unit).wp sparing (fun _ => Settled) Settled t :=
    fun t ht => settled_abort false t ht
  unfold boot
  rw [wp_attempt, wp_bind, wp_get, wp_bind]
  by_cases hdial : s.spec.weDialed = true
  · obtain ⟨hroot, hdue⟩ := hd hdial
    have hp : Poised s := ⟨hs.ordered, hs.booted, hdue⟩
    refine poised_call (c := .hash _) hp (Or.inl ⟨hdial, hroot⟩) (fun root t ht => ?_) fun t ht =>
      failed t ht.settled
    rw [wp_bind, wp_modify, wp_bind, wp_get, wp_ite]
    have ht' : Poised { t with root := some root } := ht.of_same rfl rfl rfl
    refine ⟨fun _ => ?_, fun _ => Settled.of_poised ht rfl rfl rfl⟩
    rw [wp_bind]
    refine wp_of_keeps poised_ensureKeys ht' (fun _ u hu => ?_) fun u hu => failed u hu.settled
    rw [wp_bind, wp_modify]
    refine wp_of_keeps settled_sendMsg1 ?_ (fun _ _ h => h) failed
    exact Settled.of_poised hu rfl rfl rfl
  · refine (wp_call _).2 ⟨asks_mark _ s, fun t hr => ?_⟩
    have ht : Settled t := (hs.still (Still.mark _ s)).spares hr
    have hspec : t.spec.weDialed = s.spec.weDialed := congrArg Spec.weDialed hr.moves.spec
    refine ⟨fun root => ?_, failed _ (ht.still (Still.mark _ t))⟩
    rw [wp_bind, wp_modify, wp_bind, wp_get, wp_ite]
    refine ⟨fun h => absurd (hspec.symm.trans h) hdial, fun _ => ?_⟩
    exact ht.of_same rfl

/-- While the farewell runs, nothing is left in the chain to seal. -/
structure Leaving (l : Link) : Prop where
  ordered : Ordered l
  booted : Job.boot ∉ l.work
  closed : l.closed = true
  mute : records l.work = 0

theorem Leaving.of_same {l l' : Link} (h : Leaving l) (hc : l'.closed = l.closed)
    (hp : l'.parting = l.parting) (hw : l'.work = l.work) : Leaving l' :=
  ⟨h.ordered.of_same hc hp hw, by rw [hw]; exact h.booted, hc.trans h.closed, by rw [hw]; exact h.mute⟩

theorem leaving_records : Records Spares Asks Leaving where
  rely l l' hr h := ⟨hr.ordered h.ordered, booted_moves h.booted hr.moves, hr.moves.closed h.closed,
    (hr.shut h.closed).trans h.mute⟩
  yields c l _ := asks_mark c l
  quiet l l' ho h := h.of_same (congrArg Outer.closed ho) (congrArg Outer.parting ho)
    (congrArg Outer.work ho)
  ends farewell defensive l h := by
    refine ⟨h.ordered.endLink farewell defensive, booted_moves h.booted (endLink_moves _ _ l),
      (endLink_moves _ _ l).closed h.closed, ?_⟩
    unfold endLink
    rw [if_pos h.closed]
    split
    · exact h.mute
    · exact h.mute
  stalls l h := by
    unfold stall
    split
    · exact h
    · exact h.of_same rfl rfl rfl
  tiers _ _ _ h := h.of_same rfl rfl rfl
  remembers _ _ _ h := h.of_same rfl rfl rfl
  auths _ _ h := h.of_same rfl rfl rfl
  takes _ h := h.of_same rfl rfl rfl
  sends _ _ _ h := h.of_same rfl rfl rfl
  tells _ _ h := h.of_same rfl rfl rfl
  frees _ _ h := h.of_same rfl rfl rfl
  parts _ h := h.of_same rfl rfl rfl

theorem leaving_farewell {s : Link} (hs : Leaving s) :
    farewell.wp sparing (fun _ => Settled) Settled s := by
  have gone : ∀ t, Leaving t → Settled t.teardown := by
    intro t ht
    obtain ⟨-, hc, hw, -, -⟩ := teardown_slots t
    have hp : t.teardown.parting = t.parting := by
      simp only [teardown, clearEphemeral, releaseSlot]
      split <;> rfl
    refine ⟨ht.ordered.of_same hc hp hw, by rw [hw]; exact ht.booted, .inr ⟨hc.trans ht.closed,
      teardown_bare t, .inr (by rw [hw]; exact ht.mute)⟩⟩
  unfold farewell
  rw [wp_bind]
  refine wp_mono (leaving_records.sayGoodbye hs) (fun said t ht => ?_) fun t (ht : Settled t) => ht
  rw [wp_bind, wp_modify, wp_modify]
  exact (gone t ht).of_same rfl

/-! ### Runs -/

/-- A link between two steps. -/
structure AtRest (l : Link) : Prop where
  ordered : Ordered l
  boots : Job.boot ∉ l.work.tail
  ended : Due l ∨ Gone l
  fresh : Job.boot ∈ l.work → l.root = none ∧ (l.spec.weDialed = true → Due l)

theorem Settled.atRest {l : Link} (h : Settled l) : AtRest l :=
  ⟨h.ordered, fun hb => h.booted (List.mem_of_mem_tail hb), h.ended, fun hb => absurd hb h.booted⟩

theorem AtRest.input {i : Input} {l : Link} (h : AtRest l) (hi : LostInTime none i l) :
    AtRest (l.input i) := by
  have hm := input_moves i l
  have hout := input_outside i l
  obtain ⟨js, hw, hjs⟩ := hm.work
  have hmem : Job.boot ∈ (l.input i).work → Job.boot ∈ l.work := by
    rw [hw]
    exact fun hb => (List.mem_append.1 hb).resolve_right hjs
  refine ⟨h.ordered.outside hout, ?_, ?_, fun hb => ⟨hm.root.trans (h.fresh (hmem hb)).1, ?_⟩⟩
  · rw [hw]
    cases hlw : l.work with
    | nil => exact fun hb => hjs (List.mem_of_mem_tail hb)
    | cons j ws =>
      have := h.boots
      rw [hlw] at this
      exact fun hb => (List.mem_append.1 hb).elim this hjs
  · rcases h.ended with hd | hg
    · exact (hout.due h.ordered hd).imp_right fun hg => hg.2.2
    · exact .inr (hg.moves hm (hout.shut hg.closed))
  · intro hdial
    rw [hm.spec] at hdial
    have hb' := hmem hb
    rcases hout.due h.ordered ((h.fresh hb').2 hdial) with hd | ⟨rfl, hopen, -⟩
    · exact hd
    · exact absurd ⟨hdial, hb'⟩ (hi hopen)

theorem AtRest.body {l l' : Link} {j : Job} (h : AtRest l) (hn : next l = some (j, l')) :
    (body j).wp sparing (fun _ => AtRest) AtRest l' := by
  have rests : ∀ {x : LinkProg Unit}, x.wp sparing (fun _ => Settled) Settled l' →
      x.wp sparing (fun _ => AtRest) AtRest l' := fun hx =>
    wp_mono hx (fun _ _ ht => ht.atRest) fun _ ht => ht.atRest
  obtain ⟨hw, hl'⟩ := next_eq hn
  have hclosed : l'.closed = l.closed := by rw [hl']
  have hparting : l'.parting = l.parting := by rw [hl']
  have hbooted : Job.boot ∉ l'.work := by
    have := h.boots
    rwa [hw] at this
  have hordered : Ordered l' := by
    refine ⟨fun hf => hclosed.trans (h.ordered.farewell (by rw [hw]; simp [hf])), ?_, ?_⟩
    · exact fun before after hw' => h.ordered.last (j :: before) after (by rw [hw, hw']; rfl)
    · rw [hclosed, hparting]
      exact h.ordered.opened
  by_cases hj : j = .farewell
  · subst hj
    refine rests (leaving_farewell ⟨hordered, hbooted, ?_, h.ordered.last [] l'.work hw⟩)
    exact hclosed.trans (h.ordered.farewell (by rw [hw]; simp))
  have hdue : Due l → Due l' := by
    intro hd hc
    have := hd (hclosed.symm.trans hc)
    rw [hw, List.mem_cons] at this
    exact this.resolve_left (Ne.symm hj)
  have hs : Settled l' := by
    refine ⟨hordered, hbooted, h.ended.imp hdue fun hg => ?_⟩
    rw [hl']
    refine ⟨hg.closed, ⟨hg.bare.sendKey, hg.bare.recvKey, hg.bare.ee, hg.bare.kemSecret,
      hg.bare.myEph, hg.bare.myKem⟩, hg.mute.imp_right fun hm => ?_⟩
    rw [hw] at hm
    have : records l'.work ≤ records (j :: l'.work) := (List.sublist_cons_self _ _).countP_le
    exact Nat.le_zero.1 (hm ▸ this)
  cases j with
  | boot =>
    have hroot : l'.root = l.root := by rw [hl']
    have hspec : l'.spec = l.spec := by rw [hl']
    have hfresh := h.fresh (by rw [hw]; simp)
    refine rests (settled_boot hs fun hd => ⟨hroot.trans hfresh.1, hdue (hfresh.2 ?_)⟩)
    rw [← hspec]
    exact hd
  | message m => exact rests (settled_onMessage m l' hs)
  | record frame => exact rests (settled_sendRecord frame l' hs)
  | farewell => exact absurd rfl hj

def wipes : system.Outline LostInTime where
  rely := Spares
  yields := Asks
  idle := AtRest
  rely_refl := Spares.refl
  rely_trans := Spares.trans
  input_rely _ _ _ hi hc := input_spares hi hc
  input_idle _ _ hi h := h.input hi
  yields_stable hr hc := by
    unfold Asks
    rw [hr.moves.marks]
    exact hc
  body_ok h hn := h.body hn

theorem create_atRest (node : Node) (spec : Spec) (realm : Realm) (granted : Bool) :
    AtRest (create node spec realm granted) := by
  have fresh : ∀ l : Link, l.work = [.boot] → l.closed = false → l.parting = false → l.root = none →
      AtRest l := by
    intro l hw hc hp hr
    refine ⟨⟨by simp [hw], ?_, fun _ => hp⟩, by simp [hw], .inl (by simp [Due, hc]), fun _ =>
      ⟨hr, fun _ => by simp [Due, hc]⟩⟩
    intro before after h
    rw [hw] at h
    have := congrArg (Job.farewell ∈ ·) h
    simp at this
  unfold create
  simp only
  split
  · split
    · exact fresh _ rfl rfl rfl rfl
    · refine Settled.atRest ⟨Ordered.endLink ⟨by simp, by simp, fun _ => rfl⟩ false false, ?_, .inl ?_⟩
      · simp [abort, endLink, enqueue, noteEnd]
      · simp [Due, abort, endLink, enqueue, noteEnd]
  · exact fresh _ rfl rfl rfl rfl

/-- Where no channel is lost under a step that may still store a secret, a closed link whose
chain has drained keeps none. -/
theorem closed_link_bare (node : Node) (spec : Spec) (realm : Realm) (granted : Bool)
    (evs : List LinkEvent)
    (hlost : system.Admitted LostInTime (LinkMachine.start node spec realm granted) evs)
    (hwaiting : (system.run (LinkMachine.start node spec realm granted) evs).waiting = none)
    (hwork : (system.run (LinkMachine.start node spec realm granted) evs).world.work = [])
    (hclosed : (system.run (LinkMachine.start node spec realm granted) evs).world.closed = true) :
    Bare (system.run (LinkMachine.start node spec realm granted) evs).world := by
  have h0 : wipes.Holds (LinkMachine.start node spec realm granted) :=
    create_atRest node spec realm granted
  have h := h0.run evs hlost
  revert hwaiting hwork hclosed h
  generalize system.run (LinkMachine.start node spec realm granted) evs = m
  obtain ⟨l, w⟩ := m
  rintro rfl hwork hclosed h
  rcases AtRest.ended h with hd | hg
  · have := hd hclosed
    rw [show l.work = [] from hwork] at this
    simp at this
  · exact hg.bare

/-- A node, for the runs below. -/
def someNode : Node where
  ownPk := [1]
  maxFrameBytes := 64
  maxPreAuthQueueSlices := 8
  maxVerified := 1
  maxAuthed := 1
  handshakeTimeoutMs := 0
  unverifiedTimeoutMs := 0
  admitPeers := none

def someSpec (weDialed : Bool) (rekeyAfterFrames : Nat) : Spec where
  weDialed := weDialed
  dialedPeerId := [2]
  acceptPeerId := none
  linkSecret := some [7]
  acceptSecrets := .own [[7]]
  networkKey := [3]
  lint := false
  idleMs := 0
  rekeyAfterFrames := rekeyAfterFrames
  framerGoodbye := false
  limited := false

def someRealm : Realm where
  seenProbes := []
  contactSecret := none
  extraSecrets := []
  ownKeySecret := .absent
  now := 0

/-- An acceptor whose channel goes while it waits for a first message. -/
theorem closed_link_bare_accept : Bare (system.run
    (LinkMachine.start someNode (someSpec false 4) someRealm true)
    [.start, .resume (some [5]), .input .channelClosed]).world :=
  closed_link_bare someNode (someSpec false 4) someRealm true
    [.start, .resume (some [5]), .input .channelClosed]
    ⟨fun _ h => Bool.false_ne_true h.1, trivial⟩ rfl rfl rfl

/-- A dialer loses its channel while it waits for entropy, and makes its key pair after. -/
theorem secret_left_behind : ∃ node spec realm evs,
    spec.Loads ∧
    (system.run (LinkMachine.start node spec realm true) evs).waiting = none ∧
    (system.run (LinkMachine.start node spec realm true) evs).world.work = [] ∧
    (system.run (LinkMachine.start node spec realm true) evs).world.closed = true ∧
    (system.run (LinkMachine.start node spec realm true) evs).world.myEph ≠ none ∧
    ¬Bare (system.run (LinkMachine.start node spec realm true) evs).world := by
  refine ⟨someNode, someSpec true 4, someRealm,
    [.start, .resume (some [5]), .input .channelClosed, .resume (some [6]), .resume (some [1, 8]),
      .resume none], ⟨by decide, by decide⟩, rfl, rfl, rfl, ?_, fun h => ?_⟩
  · intro h
    exact absurd (congrArg Option.isSome h) (by decide)
  · exact absurd (congrArg Option.isSome h.myEph) (by decide)

end Link

end SeedTransport
