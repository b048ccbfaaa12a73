import SeedTransport.Link.Secrets

set_option autoImplicit false

namespace SeedTransport

/-! A link that has stalled and the handshake that goes on under it. A stall wipes what the
session is derived from, so a handshake caught before it has derived fails; one that already
has its keys goes on to authenticate, and looks only at whether the link is closed. -/

open Async Async.Prog

namespace Link

/-- No read is refused between the first session key and the authentication. -/
def RefusedInTime (_ : Option Call) (i : Input) (l : Link) : Prop :=
  Refusable i → l.closed = false → l.stalled = false → l.authed = false →
    l.sendKey = none ∧ l.recvKey = none

/-! ### The outside -/

theorem endLink_keys (farewell defensive : Bool) (l : Link) :
    (l.endLink farewell defensive).sessionKeys = l.sessionKeys ∧
      (l.endLink farewell defensive).stalled = l.stalled ∧
      (l.endLink farewell defensive).authed = l.authed := by
  unfold endLink
  split
  · split
    · exact ⟨rfl, rfl, rfl⟩
    · exact ⟨rfl, rfl, rfl⟩
  · exact ⟨rfl, rfl, rfl⟩

theorem stall_keys (l : Link) : l.stall.sessionKeys = l.sessionKeys := by
  unfold stall
  split
  · rfl
  · rfl

theorem loseSlot_keys (l : Link) :
    l.loseSlot.sessionKeys = l.sessionKeys ∧ l.loseSlot.stalled = l.stalled := by
  unfold loseSlot
  split
  · exact ⟨rfl, rfl⟩
  · exact ⟨rfl, rfl⟩

/-- Only a lost channel takes the session keys. -/
theorem Outside.keys {i : Input} {l l' : Link} (h : Outside i l l') (hopen : l'.closed = false) :
    l'.sessionKeys = l.sessionKeys := by
  cases h with
  | quiet _ _ _ hk => exact hk
  | message _ m => rfl
  | record _ _ _ _ _ hk => exact hk
  | queued _ _ _ _ _ _ _ hk => exact hk
  | ends _ farewell defensive _ hk => exact (endLink_keys farewell defensive _).1.trans hk
  | evicted => exact (endLink_keys false false _).1.trans (loseSlot_keys l).1
  | stalls _ _ _ => exact stall_keys l
  | lost h0 =>
    simp only [onChannelClosed, h0, Bool.false_eq_true, if_false] at hopen
    exact absurd ((teardown_slots _).2.1.symm.trans hopen) (by simp [noteEnd])
  | handsOn => rfl

/-- A link stalls from outside only for a read it refuses. -/
theorem Outside.stalled {i : Input} {l l' : Link} (h : Outside i l l') (hs : l'.stalled = true) :
    l.stalled = true ∨ Refusable i ∧ l.authed = false ∧ l' = l.stall := by
  have same : ∀ {l₁ : Link} {o : Outer}, l₁.outer = o → o.stalled = l.stalled →
      l₁.stalled = l.stalled := by
    rintro l₁ o rfl h1
    exact h1
  cases h with
  | quiet _ _ ho _ => exact .inl ((same ho rfl).symm.trans hs)
  | message _ m => exact .inl hs
  | record _ _ _ _ ho _ => exact .inl ((same ho rfl).symm.trans hs)
  | queued _ _ _ _ _ _ ho _ => exact .inl ((same ho rfl).symm.trans hs)
  | ends _ farewell defensive ho _ =>
    exact .inl ((same ho rfl).symm.trans ((endLink_keys farewell defensive _).2.1.symm.trans hs))
  | evicted =>
    exact .inl ((loseSlot_keys l).2.symm.trans ((endLink_keys false false _).2.1.symm.trans hs))
  | stalls _ ha hr => exact .inr ⟨hr, ha, rfl⟩
  | lost h0 =>
    simp only [onChannelClosed, h0, Bool.false_eq_true, if_false] at hs
    have : (teardown (noteEnd .lost { l with closed := true })).stalled = l.stalled := by
      simp only [teardown, clearEphemeral, releaseSlot]
      split <;> rfl
    exact .inl (this.symm.trans hs)
  | handsOn => exact .inl hs

/-- `l'` is `l` after calls from outside that refuse in time. -/
structure Refusing (l l' : Link) : Prop where
  moves : Moves l l'
  keys : l'.closed = false → l'.sessionKeys = l.sessionKeys
  firm : l.authed = true → l'.stalled = true → l.stalled = true
  wiped : l'.stalled = true → l.stalled = true ∨ l'.ee = none ∧ l'.myKem = none
  timely : l'.stalled = true → l.stalled = true ∨ l'.closed = true ∨ l.sessionKeys = (none, none)

theorem Refusing.refl (l : Link) : Refusing l l :=
  ⟨.refl l, fun _ => rfl, fun _ => id, .inl, .inl⟩

theorem Moves.still_open {l l' : Link} (h : Moves l l') (hopen : l'.closed = false) :
    l.closed = false := by
  by_contra hc
  have := h.closed (by simpa using hc)
  simp [hopen] at this

theorem KeptOrWiped.none {α : Type} {a b : Option α} (h : KeptOrWiped a b) (ha : a = none) :
    b = none := by
  rcases h with rfl | rfl
  · exact ha
  · rfl

theorem Refusing.trans {l l' l'' : Link} (h : Refusing l l') (h' : Refusing l' l'') :
    Refusing l l'' := by
  refine ⟨h.moves.trans h'.moves, fun hopen => ?_, fun ha hs => ?_, fun hs => ?_, fun hs => ?_⟩
  · exact (h'.keys hopen).trans (h.keys (h'.moves.still_open hopen))
  · exact h.firm ha (h'.firm (h.moves.authed.trans ha) hs)
  · rcases h'.wiped hs with hs' | hw
    · refine (h.wiped hs').imp_right fun hw => ?_
      exact ⟨h'.moves.ee.none hw.1, h'.moves.myKem.none hw.2⟩
    · exact .inr hw
  · rcases h'.timely hs with hs' | hc | hk
    · exact (h.timely hs').imp_right (Or.imp_left h'.moves.closed)
    · exact .inr (.inl hc)
    · by_cases hc : l'.closed = true
      · exact .inr (.inl (h'.moves.closed hc))
      · exact .inr (.inr ((h.keys (by simpa using hc)).symm.trans hk))

theorem input_refusing {w : Option Call} {i : Input} {l : Link} (hi : RefusedInTime w i l) :
    Refusing l (l.input i) := by
  have ho := input_outside i l
  refine ⟨input_moves i l, ho.keys, fun ha hs => ?_, fun hs => ?_, fun hs => ?_⟩
  · refine (ho.stalled hs).resolve_right fun h => ?_
    simp [ha] at h
  · by_cases hl : l.stalled = true
    · exact .inl hl
    · obtain ⟨-, -, he⟩ := (ho.stalled hs).resolve_left hl
      rw [he]
      exact .inr (by simp [stall, hl, clearEphemeral])
  · by_cases hl : l.stalled = true
    · exact .inl hl
    · obtain ⟨hr, ha, he⟩ := (ho.stalled hs).resolve_left hl
      by_cases hc : l.closed = true
      · exact .inr (.inl ((input_moves i l).closed hc))
      · have := hi hr (by simpa using hc) (by simpa using hl) ha
        exact .inr (.inr (by simp [sessionKeys, this.1, this.2]))

/-! ### The handshake -/

/-- A link that has stalled has not authenticated. -/
def Clear (l : Link) : Prop := l.stalled = true → l.authed = false

/-- A handshake on its way to a session: a stall has ended it, or taken what the session
would be derived from. -/
structure Unarmed (l : Link) : Prop where
  authed : l.authed = false
  halts : l.stalled = true → l.closed = true ∨ l.ee = none

/-- A handshake with a session key: only the end of the link stalls it. -/
structure Armed (l : Link) : Prop where
  authed : l.authed = false
  halts : l.stalled = true → l.closed = true
  keyed : l.closed = false → l.sessionKeys ≠ (none, none)

def refusing : Terms Link Call Bytes := under Refusing fun _ => Clear

section Stable

variable {l l' : Link}

theorem clear_of (h : l.authed = false) : Clear l := fun _ => h

theorem Clear.of_same (h : Clear l) (hs : l'.stalled = l.stalled) (ha : l'.authed = l.authed) :
    Clear l' := by
  unfold Clear
  rw [hs, ha]
  exact h

theorem Clear.refusing (h : Clear l) (hr : Refusing l l') : Clear l' := by
  intro hs
  rw [hr.moves.authed]
  by_contra ha
  have ha' : l.authed = true := by simpa using ha
  exact ha (h (hr.firm ha' hs))

theorem clear_seals : Seals Refusing (fun _ => Clear) Clear where
  rely _ _ hr h := h.refusing hr
  yields _ _ h := h.of_same rfl rfl
  quiet _ _ ho h := h.of_same (congrArg Outer.stalled ho) (congrArg Outer.authed ho)
  ends farewell defensive l h :=
    h.of_same (endLink_keys farewell defensive l).2.1 (endLink_keys farewell defensive l).2.2
  tiers _ _ _ h := h.of_same rfl rfl
  takes _ h := h.of_same rfl rfl
  sends _ _ _ h := h.of_same rfl rfl
  tells _ _ h := h.of_same rfl rfl
  frees _ _ h := h.of_same rfl rfl

theorem stall_authed (l : Link) : l.stall.authed = l.authed := by
  unfold stall
  split
  · rfl
  · rfl

theorem early_handshakes : Handshakes Refusing (fun _ => Clear) fun l => l.authed = false where
  rely _ _ hr h := hr.moves.authed.trans h
  yields _ _ h := clear_of h
  quiet _ _ ho h := (congrArg Outer.authed ho).trans h
  ends farewell defensive l h := (endLink_keys farewell defensive l).2.2.trans h
  stalls l h := (stall_authed l).trans h
  tiers _ _ _ h := h
  remembers _ _ _ h := h

theorem unarmed_steady : Steady Refusing (fun _ => Clear) Unarmed where
  yields _ _ h := clear_of h.authed
  rely c l l' h hr := by
    refine ⟨hr.moves.authed.trans h.authed, fun hs => ?_⟩
    rcases hr.wiped hs with hs | hw
    · exact (h.halts hs).imp hr.moves.closed hr.moves.ee.none
    · exact .inr hw.1
  still l l' hs h := by
    refine ⟨(congrArg Inner.authed hs.inner).trans h.authed, fun hst => ?_⟩
    refine (h.halts ((congrArg Inner.stalled hs.inner).symm.trans hst)).imp ?_ ?_
    · exact fun hc => (congrArg Inner.closed hs.inner).trans hc
    · exact fun he => (congrArg Inner.ee hs.inner).trans he

theorem armed_steady : Steady Refusing (fun _ => Clear) Armed where
  yields _ _ h := clear_of h.authed
  rely c l l' h hr := by
    refine ⟨hr.moves.authed.trans h.authed, fun hs => ?_, fun hopen => ?_⟩
    · rcases hr.timely hs with hs | hc | hk
      · exact hr.moves.closed (h.halts hs)
      · exact hc
      · by_contra hopen
        exact h.keyed (hr.moves.still_open (by simpa using hopen)) hk
    · rw [hr.keys hopen]
      exact h.keyed (hr.moves.still_open hopen)
  still l l' hs h := by
    have hc : l'.closed = l.closed := congrArg Inner.closed hs.inner
    refine ⟨(congrArg Inner.authed hs.inner).trans h.authed, fun hst => ?_, fun hopen => ?_⟩
    · exact hc.trans (h.halts ((congrArg Inner.stalled hs.inner).symm.trans hst))
    · have hk : l'.sessionKeys = l.sessionKeys :=
        congrArg (fun i : Inner => (i.sendKey, i.recvKey)) hs.inner
      rw [hk]
      exact h.keyed (hc.symm.trans hopen)

theorem Unarmed.abort (h : Unarmed l) (defensive : Bool) : Unarmed (l.abort defensive) := by
  obtain ⟨-, hs, ha⟩ := endLink_keys false defensive l
  have hm := abort_moves defensive l
  refine ⟨ha.trans h.authed, fun hst => ?_⟩
  exact (h.halts (hs.symm.trans hst)).imp hm.closed hm.ee.none

end Stable

/-- From an invariant a step keeps to what is wanted of its end. -/
theorem clear_wp {α : Type} {I : Link → Prop} {x : LinkProg α} (hx : Keeps refusing I x) {s : Link}
    (hs : I s) (hI : ∀ l, I l → l.authed = false) {Q : α → Link → Prop} (hQ : ∀ a t, I t → Q a t) :
    x.wp refusing Q Clear s :=
  wp_mono (hx s hs) hQ fun t ht => clear_of (hI t ht)

/-- The first session key may be derived under a stall; the second is not. -/
theorem armed_derive {s : Link} (hs : Unarmed s) :
    deriveConcealedSession.wp refusing (fun _ => Armed) (fun t => t.authed = false) s := by
  unfold deriveConcealedSession
  rw [wp_bind, wp_get, wp_bind]
  refine wp_mono (unarmed_steady.kdf _ _ _ s hs) (fun i2r t ht => ?_) fun t ht => ht.authed
  rw [wp_bind, wp_modify, wp_bind, wp_get, wp_bind]
  have first : Unarmed (if t.spec.weDialed then { t with sendKey := some i2r }
      else { t with recvKey := some i2r }) ∧ (if t.spec.weDialed then { t with sendKey := some i2r }
      else { t with recvKey := some i2r }).sessionKeys ≠ (none, none) := by
    split
    · exact ⟨⟨ht.authed, ht.halts⟩, by simp [sessionKeys]⟩
    · exact ⟨⟨ht.authed, ht.halts⟩, by simp [sessionKeys]⟩
  revert first
  generalize (if t.spec.weDialed then { t with sendKey := some i2r }
      else { t with recvKey := some i2r }) = u
  rintro ⟨hu, hkeys⟩
  unfold kdf
  rw [wp_bind, wp_need]
  refine ⟨fun parts hparts => ?_, fun _ => hu.authed⟩
  have harmed : Armed u := by
    refine ⟨hu.authed, fun hst => (hu.halts hst).resolve_right fun he => ?_, fun _ => hkeys⟩
    simp [he] at hparts
  rw [wp_bind, wp_get, wp_bind, wp_need]
  refine ⟨fun secret _ => ?_, fun _ => hu.authed⟩
  rw [wp_bind, wp_need]
  refine ⟨fun ctx _ => ?_, fun _ => hu.authed⟩
  refine wp_mono (armed_steady.call _ u harmed) (fun r2i v hv => ?_) fun v hv => hv.authed
  rw [wp_bind, wp_modify, wp_bind, wp_modify, wp_modify]
  refine ⟨?_, ?_, ?_⟩
  · change (if v.spec.weDialed then { v with recvKey := some r2i }
      else { v with sendKey := some r2i }).authed = false
    split
    · exact hv.authed
    · exact hv.authed
  · change (if v.spec.weDialed then { v with recvKey := some r2i }
      else { v with sendKey := some r2i }).stalled = true →
      (if v.spec.weDialed then { v with recvKey := some r2i }
      else { v with sendKey := some r2i }).closed = true
    split
    · exact hv.halts
    · exact hv.halts
  · intro _
    change (if v.spec.weDialed then { v with recvKey := some r2i }
      else { v with sendKey := some r2i }).sessionKeys ≠ (none, none)
    split
    · simp [sessionKeys]
    · simp [sessionKeys]

/-- With its session, a link authenticates unless it was stalled too late to tell. -/
theorem armed_becomeAuthed {s : Link} (hs : Armed s) :
    becomeAuthed.wp refusing (fun _ => Clear) Clear s := by
  refine clear_seals.becomeAuthed (clear_of hs.authed) fun hopen hst => ?_
  have := hs.halts hst
  simp [hopen] at this

theorem clear_answerMsg2 (w2 : Bytes) {s : Link} (hs : Unarmed s) :
    (answerMsg2 w2).wp refusing (fun _ => Clear) Clear s := by
  have early : ∀ l, Unarmed l → l.authed = false := fun l h => h.authed
  unfold answerMsg2
  rw [wp_bind, wp_get, wp_bind, wp_need]
  refine ⟨fun th _ => ?_, fun _ => clear_of hs.authed⟩
  rw [wp_bind]
  refine clear_wp (unarmed_steady.call _) hs early fun h2 t ht => ?_
  rw [wp_bind]
  refine clear_wp (unarmed_steady.signTranscript (fun l h => h.abort false) _) ht early fun sig t ht => ?_
  cases sig with
  | none => exact clear_of ht.authed
  | some sig =>
    rw [wp_bind, wp_get, wp_bind]
    refine clear_wp (unarmed_steady.kdf _ _ _) ht early fun key u hu => ?_
    rw [wp_bind]
    refine clear_wp (unarmed_steady.call _) hu early fun w3 v hv => ?_
    rw [wp_bind]
    refine clear_wp (unarmed_steady.call _) hv early fun th' x hx => ?_
    rw [wp_bind, wp_modify, wp_bind, wp_attempt, wp_bind]
    refine wp_mono (armed_derive (s := { x with th := some th' }) ⟨hx.authed, hx.halts⟩)
      (fun _ y hy => ?_) fun y hy => ?_
    · rw [wp_pure, wp_ite]
      refine ⟨fun _ => ?_, fun h => absurd rfl h⟩
      rw [wp_bind]
      exact clear_wp (armed_steady.wire w3) hy (fun _ h => h.authed) fun _ z hz => armed_becomeAuthed hz
    · rw [wp_bind, wp_modify, wp_pure, wp_ite]
      exact ⟨fun h => by simp at h, fun _ => clear_of ((endLink_keys false false y).2.2.trans hy)⟩

theorem clear_stall {s : Link} (hs : s.authed = false) :
    (Prog.modify Link.stall : LinkProg Unit).wp refusing (fun _ => Clear) Clear s :=
  clear_of ((stall_authed s).trans hs)

theorem clear_abort (defensive : Bool) {s : Link} (hs : s.authed = false) :
    (Prog.modify (abort defensive) : LinkProg Unit).wp refusing (fun _ => Clear) Clear s :=
  clear_of ((endLink_keys false defensive s).2.2.trans hs)

theorem clear_checkMsg2 (w2 head : Bytes) {s : Link} (hs : Unarmed s) :
    (checkMsg2 w2 head).wp refusing (fun _ => Clear) Clear s := by
  have early : ∀ l, Unarmed l → l.authed = false := fun l h => h.authed
  unfold checkMsg2
  rw [wp_bind, wp_get, wp_bind, wp_need]
  refine ⟨fun th _ => ?_, fun _ => clear_of hs.authed⟩
  rw [wp_bind]
  refine clear_wp (unarmed_steady.call _) hs early fun hsh t ht => ?_
  rw [wp_bind, wp_get, wp_bind]
  refine clear_wp (unarmed_steady.kdf _ _ _) ht early fun key u hu => ?_
  rw [wp_bind]
  refine clear_wp (unarmed_steady.aeadDec _ _ _) hu early fun r v hv => ?_
  cases r with
  | none => exact clear_stall hv.authed
  | some sig =>
    simp only
    rw [wp_bind, wp_get, wp_ite]
    refine ⟨fun _ => clear_abort false hv.authed, fun _ => ?_⟩
    rw [wp_bind, wp_need]
    refine ⟨fun root _ => ?_, fun _ => clear_of hv.authed⟩
    rw [wp_bind]
    refine clear_wp (unarmed_steady.verify _ _ _) hv early fun good y hy => ?_
    rw [wp_ite]
    refine ⟨fun _ => clear_abort true hy.authed, fun _ => ?_⟩
    rw [wp_ite]
    refine ⟨fun _ => clear_abort true hy.authed, fun _ => ?_⟩
    rw [wp_bind, wp_modify]
    exact clear_answerMsg2 w2 ⟨hy.authed, hy.halts⟩

/-- A stall in the middle of msg2 takes the key pair its next step needs. -/
theorem clear_onMsg2 (w2 : Bytes) {s : Link} (hs : Unarmed s) (hst : s.stalled = false) :
    (onMsg2 w2).wp refusing (fun _ => Clear) Clear s := by
  have early : ∀ l, Unarmed l → l.authed = false := fun l h => h.authed
  unfold onMsg2
  rw [wp_ite]
  refine ⟨fun _ => clear_stall hs.authed, fun _ => ?_⟩
  simp only
  rw [wp_bind, wp_get, wp_bind, wp_need]
  refine ⟨fun myEph _ => ?_, fun _ => clear_of hs.authed⟩
  simp only [scalarmult]
  rw [wp_bind, wp_bind]
  refine (wp_call _).2 ⟨clear_of hs.authed, fun t hr => ?_⟩
  have ht : t.authed = false := hr.moves.authed.trans hs.authed
  have hkem : t.stalled = true → t.myKem = none := fun h =>
    ((hr.wiped h).resolve_left fun h' => absurd (hst.symm.trans h') (by simp)).2
  refine ⟨fun b => ?_, clear_of ht⟩
  rw [wp_pure]
  cases okTail b with
  | none => exact clear_stall ht
  | some x =>
    simp only
    rw [wp_bind, wp_modify, wp_bind, wp_get, wp_bind, wp_need]
    refine ⟨fun myKem hmyKem => ?_, fun _ => clear_of ht⟩
    have hst' : t.stalled = false := by
      by_contra h
      have := hkem (by simpa using h)
      exact absurd (this.symm.trans hmyKem) (by simp)
    simp only [kemDecaps]
    rw [wp_bind, wp_bind]
    refine (wp_call _).2 ⟨clear_of ht, fun u hr' => ?_⟩
    have hu : u.authed = false := hr'.moves.authed.trans ht
    have hee : u.stalled = true → u.ee = none := fun h =>
      ((hr'.wiped h).resolve_left fun h' => absurd (hst'.symm.trans h') (by simp)).1
    refine ⟨fun b => ?_, clear_of hu⟩
    rw [wp_pure]
    split
    · exact clear_stall hu
    · rename_i ss _
      rw [wp_bind, wp_modify]
      exact clear_checkMsg2 w2 _ ⟨hu, fun h => .inr (hee h)⟩

theorem clear_onMsg3 (w3 : Bytes) {s : Link} (hs : Unarmed s) :
    (onMsg3 w3).wp refusing (fun _ => Clear) Clear s := by
  have early : ∀ l, Unarmed l → l.authed = false := fun l h => h.authed
  unfold onMsg3
  rw [wp_ite]
  refine ⟨fun _ => clear_stall hs.authed, fun _ => ?_⟩
  rw [wp_bind, wp_get, wp_bind]
  refine clear_wp (unarmed_steady.kdf _ _ _) hs early fun key t ht => ?_
  rw [wp_bind, wp_get, wp_bind, wp_need]
  refine ⟨fun th _ => ?_, fun _ => clear_of ht.authed⟩
  rw [wp_bind]
  refine clear_wp (unarmed_steady.openIdentity _ _ _) ht early fun id u hu => ?_
  cases id with
  | none => exact clear_stall hu.authed
  | some idI =>
    rw [wp_bind, wp_get, wp_ite]
    refine ⟨fun _ => clear_abort true hu.authed, fun _ => ?_⟩
    rw [wp_bind, wp_modify, wp_bind]
    have hv : Unarmed { u with peerPubkey := some idI, peerId := idI } := ⟨hu.authed, hu.halts⟩
    refine clear_wp (unarmed_steady.call _) hv early fun th' v hv => ?_
    rw [wp_bind, wp_modify, wp_bind, wp_attempt, wp_bind]
    refine wp_mono (armed_derive (s := { v with th := some th' }) ⟨hv.authed, hv.halts⟩)
      (fun _ y hy => ?_) fun y hy => ?_
    · rw [wp_pure, wp_ite]
      exact ⟨fun _ => armed_becomeAuthed hy, fun h => absurd rfl h⟩
    · rw [wp_bind, wp_modify, wp_pure, wp_ite]
      exact ⟨fun h => by simp at h, fun _ => clear_of ((stall_authed y).trans hy)⟩

/-! ### Runs -/

theorem clear_onMessage (m : Bytes) {s : Link} (hs : Clear s) :
    (onMessage m).wp refusing (fun _ => Clear) Clear s := by
  have refused : ∀ t, Clear t →
      (Prog.modify Link.refuse : LinkProg Unit).wp refusing (fun _ => Clear) Clear t := by
    intro t ht
    rw [wp_modify]
    unfold refuse
    split
    · exact clear_seals.ends false true t ht
    · rename_i ha
      exact clear_of ((stall_authed t).trans (by simpa using ha))
  unfold onMessage
  rw [wp_bind, wp_get, wp_ite]
  refine ⟨fun _ => hs, fun hopen => ?_⟩
  simp only [Bool.or_eq_true, not_or, Bool.not_eq_true] at hopen
  rw [wp_bind, wp_modify, wp_attempt]
  unfold handle
  rw [wp_bind, wp_get, wp_ite]
  refine ⟨fun _ => ?_, fun ha => ?_⟩
  · refine wp_mono (clear_seals.onRecord (fun l hl => ?_) m _ (hs.of_same rfl rfl))
      (fun _ _ ht => ht) refused
    exact clear_seals.ends true false _ (Clear.of_same hl rfl rfl)
  · have hearly : (s.mark (.took m)).authed = false := by simpa using ha
    have hun : Unarmed (s.mark (.took m)) :=
      ⟨hearly, fun h => absurd (hopen.2.symm.trans h) (by simp)⟩
    rw [wp_ite]
    refine ⟨fun _ => wp_mono (clear_onMsg2 m hun hopen.2) (fun _ _ ht => ht) refused, fun _ => ?_⟩
    rw [wp_ite]
    refine ⟨fun _ => wp_mono (clear_onMsg3 m hun) (fun _ _ ht => ht) refused, fun _ => ?_⟩
    exact wp_mono (early_handshakes.onMsg1 m _ hearly) (fun _ _ ht => clear_of ht)
      fun t ht => refused t (clear_of ht)

theorem clear_farewell {s : Link} (hs : Clear s) :
    farewell.wp refusing (fun _ => Clear) Clear s := by
  unfold farewell
  rw [wp_bind]
  refine wp_mono (clear_seals.sayGoodbye hs) (fun said t ht => ?_) fun t (ht : Clear t) => ht
  rw [wp_bind, wp_modify, wp_modify]
  have hkept : t.teardown.stalled = t.stalled ∧ t.teardown.authed = t.authed := by
    simp only [teardown, clearEphemeral, releaseSlot]
    split
    · exact ⟨rfl, rfl⟩
    · exact ⟨rfl, rfl⟩
  exact ht.of_same hkept.1 hkept.2

def stays : system.Outline RefusedInTime where
  rely := Refusing
  yields _ := Clear
  idle := Clear
  rely_refl := Refusing.refl
  rely_trans := Refusing.trans
  input_rely _ _ _ hi _ := input_refusing hi
  input_idle _ _ hi h := h.refusing (input_refusing hi)
  yields_stable hr h := h.refusing hr
  body_ok {s t j} h hn := by
    obtain ⟨-, ht⟩ := next_eq hn
    have hclear : Clear t := h.of_same (by rw [ht]) (by rw [ht])
    cases j with
    | boot => exact clear_seals.boot t hclear
    | message m => exact clear_onMessage m hclear
    | record frame => exact clear_seals.sendRecord frame t hclear
    | farewell => exact clear_farewell hclear

/-- Where no read is refused between the first session key and the authentication, a link
that has stalled never authenticates. -/
theorem stall_terminal (node : Node) (spec : Spec) (realm : Realm) (granted : Bool)
    (evs : List LinkEvent)
    (hrefused : system.Admitted RefusedInTime (LinkMachine.start node spec realm granted) evs) :
    ¬((system.run (LinkMachine.start node spec realm granted) evs).world.stalled = true ∧
      (system.run (LinkMachine.start node spec realm granted) evs).world.authed = true) := by
  have h0 : stays.Holds (LinkMachine.start node spec realm granted) := by
    refine clear_of ?_
    unfold LinkMachine.start create
    simp only
    split
    · split
      · rfl
      · exact (endLink_keys false false _).2.2
    · rfl
  have h : Clear (system.run (LinkMachine.start node spec realm granted) evs).world :=
    (h0.run evs hrefused).world (P := Clear) (fun _ _ hy => hy) fun _ hi => hi
  rintro ⟨hs, ha⟩
  have := h hs
  simp [ha] at this

/-- A dialer up to where it has put msg3 on the wire. -/
def dialedRun : List LinkEvent :=
  [.start, .resume (some [5]), .resume (some [6]), .resume (some (1 :: List.replicate 32 8)),
    .resume (some [9]), .resume (some (List.replicate (KEM_PK_LEN + KEM_SK_LEN) 4)),
    .resume (some [10]), .resume (some [11]), .resume (some [12]), .resume (some [13]),
    .resume (some []), .input (.deliver (List.replicate M2_LEN 0)), .start,
    .resume (some [1, 14]), .resume (some (1 :: List.replicate KEM_SS_LEN 15)), .resume (some [16]),
    .resume (some [17]), .resume (some [1, 18]), .resume (some [1]), .resume (some [19]),
    .resume (some [20]), .resume (some [21]), .resume (some [22]), .resume (some [23]),
    .resume (some [24]), .resume (some [25])]

/-- An acceptor that refuses a read before any handshake. -/
theorem stall_terminal_accept : ¬((system.run
    (LinkMachine.start someNode (someSpec false 4) someRealm true)
    [.start, .resume (some [5]), .input .badFraming]).world.stalled = true ∧
    (system.run (LinkMachine.start someNode (someSpec false 4) someRealm true)
    [.start, .resume (some [5]), .input .badFraming]).world.authed = true) :=
  stall_terminal someNode (someSpec false 4) someRealm true
    [.start, .resume (some [5]), .input .badFraming] ⟨fun _ _ _ _ => ⟨rfl, rfl⟩, trivial⟩

/-- The codec finds fault with a read while msg3 is on its way out: the link stalls, and then
authenticates. -/
theorem stalled_and_authed : (system.run
    (LinkMachine.start someNode (someSpec true 4) someRealm true)
    (dialedRun ++ [.input .badFraming, .resume (some [])])).world.stalled = true ∧
    (system.run (LinkMachine.start someNode (someSpec true 4) someRealm true)
    (dialedRun ++ [.input .badFraming, .resume (some [])])).world.authed = true ∧
    (system.run (LinkMachine.start someNode (someSpec true 4) someRealm true)
    (dialedRun ++ [.input .badFraming, .resume (some [])])).waiting.map Prod.fst =
      some (.onAuth [2]) := by
  decide +kernel

end Link

end SeedTransport
