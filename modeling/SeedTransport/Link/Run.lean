import SeedTransport.Link.Handshake

set_option autoImplicit false

namespace SeedTransport

/-! Every job of the work chain keeps the invariant, so it holds in every run. -/

open Async Async.Prog

namespace Link

/-- A link whose boot has not run yet. -/
structure Fresh (l : Link) : Prop where
  authed : l.authed = false
  first : l.peerEph = none
  silent : l.marks = []
  boots : ∃ js, l.work = .boot :: js ∧ Safe { l with work := js }

/-- A link between two steps of its work chain. -/
def Idle (l : Link) : Prop := Fresh l ∨ Rest l

theorem Fresh.moves {l l' : Link} (h : Fresh l) (hm : Moves l l') : Fresh l' := by
  obtain ⟨js, hj, hs⟩ := h.boots
  obtain ⟨js', hj', hb⟩ := hm.work
  have hwork : l'.work = .boot :: (js ++ js') := by rw [hj', hj]; rfl
  have hm' : Moves { l with work := js } { l' with work := js ++ js' } :=
    { hm with
      work := ⟨js', rfl, hb⟩
      records := by
        have := hm.records
        rw [hwork, hj] at this
        simpa [records, isRecord] using this
      queue := fun hq =>
        have hq' := hm.queue ⟨hq.bytes, hq.nonempty, hq.length⟩
        ⟨hq'.bytes, hq'.nonempty, hq'.length⟩ }
  exact ⟨hm.authed.trans h.authed, hm.peerEph.trans h.first, hm.marks.trans h.silent,
    js ++ js', hwork, hs.moves hm'⟩

theorem Idle.moves {l l' : Link} (h : Idle l) (hm : Moves l l') : Idle l' :=
  h.imp (fun h => h.moves hm) fun h => h.moves hm

/-! ### The jobs -/

/-- A job taken off the chain leaves the rest of the state as it was. -/
theorem Safe.tail {l : Link} {j : Job} {js : List Job} (h : Safe l) (hw : l.work = j :: js) :
    Safe { l with work := js } := by
  have hrec : records l.work = records js + if isRecord j then 1 else 0 := by
    rw [hw]
    exact List.countP_cons
  have hle : records js ≤ records l.work := by omega
  refine ⟨{ h.toCore with
      booted := fun hb => h.booted (by rw [hw]; exact List.mem_cons_of_mem _ hb)
      queue := ⟨h.queue.bytes, h.queue.nonempty, h.queue.length⟩
      taken := hle.trans h.taken
      budget := le_trans (Nat.add_le_add_left hle _) h.budget
      early := fun ha => ?_
      late := h.late }, h.recvHere, h.passed, h.nonempty⟩
  obtain ⟨h1, h2, h3, h4, h5⟩ := h.early ha
  exact ⟨h1, h2, h3, h4, Nat.le_zero.1 (h5 ▸ hle)⟩

theorem Rest.tail {l : Link} {j : Job} {js : List Job} (h : Rest l) (hw : l.work = j :: js) :
    Rest { l with work := js } := by
  refine ⟨h.safe.tail hw, ?_, h.ctr⟩
  rcases h.ready with hc | hs | hr
  · exact .inl hc
  · exact .inr (.inl hs)
  · refine .inr (.inr ?_)
    cases hr with
    | record ha hc => exact .record ha hc
    | msg2 ha hd h w =>
      exact .msg2 ha hd h ⟨w.made, w.th, w.root, w.eph, w.kem, w.new, w.seals⟩
    | msg1 ha hd hf hn hs => exact .msg1 ha hd hf hn hs
    | msg3 ha hd hf r w =>
      exact .msg3 ha hd hf r ⟨w.made, w.th, w.root, w.secret, w.ee, w.ss, w.new⟩

/-- A message is noted before it is handled. -/
theorem Ready.took {l : Link} (h : Ready l) (m : Bytes) : Ready (l.mark (.took m)) := by
  have hsub : l.marks ⊆ (l.mark (.took m)).marks := by simp [Link.mark]
  have hnew : NoSession l.marks → NoSession (l.mark (.took m)).marks := by
    intro hn p t s r hmem
    rcases List.mem_append.1 hmem with hmem | hmem
    · exact hn p t s r hmem
    · simp at hmem
  have hseals : ∀ labels, OnlySeals labels l.marks → OnlySeals labels (l.mark (.took m)).marks := by
    intro labels hs k n p hmem
    rcases List.mem_append.1 hmem with hmem | hmem
    · obtain ⟨label, hl, hk⟩ := hs k n p hmem
      exact ⟨label, hl, hk.longer hsub⟩
    · simp at hmem
  cases h with
  | record ha hc => exact .record ha hc
  | msg2 ha hd h w =>
    exact .msg2 ha hd h ⟨w.made.longer hsub, w.th, w.root, w.eph, w.kem, hnew w.new, hseals _ w.seals⟩
  | msg1 ha hd hf hn hs => exact .msg1 ha hd hf (hnew hn) (hseals _ hs)
  | msg3 ha hd hf r w =>
    exact .msg3 ha hd hf r ⟨w.made.longer hsub, w.th, w.root, w.secret, w.ee, w.ss, hnew w.new⟩

theorem wp_handle {s : Link} (m : Bytes) (hs : Safe s) (hopen : s.closed = false) (hr : Ready s)
    (hf : CtrFits s) (htook : Mark.took m ∈ s.marks) :
    (handle m).wp terms (fun _ => Rest) (fun t => Rest t.refuse) s := by
  unfold handle
  rw [wp_bind, wp_get, wp_ite]
  cases hr with
  | record ha hc => exact ⟨fun _ => wp_onRecord hs ha hc hopen hf, fun h => absurd ha h⟩
  | msg2 ha hd h w =>
    refine ⟨fun h => by simp [ha] at h, fun _ => ?_⟩
    rw [wp_ite]
    exact ⟨fun _ => wp_onMsg2 m hs ha hd w, fun h => absurd hd h⟩
  | msg1 ha hd hfirst hn hseals =>
    refine ⟨fun h => by simp [ha] at h, fun _ => ?_⟩
    rw [wp_ite]
    refine ⟨fun h => by simp [hd] at h, fun _ => ?_⟩
    rw [wp_ite]
    exact ⟨fun h => by simp [hfirst] at h, fun _ => wp_onMsg1 m hs ha hd htook hn hseals⟩
  | msg3 ha hd hsecond r w =>
    refine ⟨fun h => by simp [ha] at h, fun _ => ?_⟩
    rw [wp_ite]
    refine ⟨fun h => by simp [hd] at h, fun _ => ?_⟩
    rw [wp_ite]
    refine ⟨fun _ => wp_onMsg3 m hs ha hd w, fun h => ?_⟩
    exact absurd (Option.isSome_iff_ne_none.2 hsecond) h

theorem wp_onMessage {s : Link} (m : Bytes) (h : Rest s) :
    (onMessage m).wp terms (fun _ => Rest) Rest s := by
  unfold onMessage
  rw [wp_bind, wp_get, wp_ite]
  refine ⟨fun _ => h, fun hopen => ?_⟩
  simp only [Bool.or_eq_true, not_or, Bool.not_eq_true] at hopen
  have hready : Ready s := by
    rcases h.ready with hc | hc | hr
    · simp [hopen.1] at hc
    · simp [hopen.2] at hc
    · exact hr
  have hs' : Safe (s.mark (.took m)) := h.safe.note trivial ⟨rfl, rfl, rfl⟩ (by simp)
  rw [wp_bind, wp_modify, wp_attempt]
  refine wp_mono (wp_handle m hs' hopen.1 (hready.took m) h.ctr (by simp [Link.mark]))
    (fun _ _ ht => ht) fun t ht => ht

theorem wp_body {l l' : Link} {j : Job} (h : Idle l) (hn : next l = some (j, l')) :
    (body j).wp terms (fun _ => Idle) Idle l' := by
  have toIdle : ∀ {x : LinkProg Unit} {s : Link}, x.wp terms (fun _ => Rest) Rest s →
      x.wp terms (fun _ => Idle) Idle s := fun hx =>
    wp_mono hx (fun _ _ ht => .inr ht) fun _ ht => .inr ht
  unfold next at hn
  cases hw : l.work with
  | nil => simp [hw] at hn
  | cons j' js =>
    simp only [hw, Option.some.injEq, Prod.mk.injEq] at hn
    obtain ⟨rfl, rfl⟩ := hn
    rcases h with h | h
    · obtain ⟨js', hj, hs⟩ := h.boots
      rw [hw] at hj
      obtain ⟨rfl, rfl⟩ := List.cons.inj hj
      refine toIdle (wp_boot hs h.authed h.first ?_ ?_)
      · simp [NoSession, h.silent]
      · simp [OnlySeals, h.silent]
    · have hr := h.tail hw
      cases j' with
      | boot => exact absurd (by simp [hw]) h.safe.booted
      | message m => exact toIdle (wp_onMessage m hr)
      | record frame =>
        have hrec : records l.work = records js + 1 := by
          rw [hw]
          exact List.countP_cons
        have ha : l.authed = true := by
          by_contra hf
          have := (h.safe.early (by simpa using hf)).2.2.2.2
          omega
        have htaken := h.safe.taken
        have hbudget := h.safe.budget
        exact toIdle (wp_sendRecord hr.safe ha hr.ready hr.ctr (by simp only; omega)
          (by simp only; omega))
      | farewell => exact toIdle (wp_farewell hr.safe hr.ready hr.ctr)

/-! ### Runs -/

def outline : Link.system.Outline fun _ _ _ => True where
  rely := Moves
  yields := Yields
  idle := Idle
  rely_refl := Moves.refl
  rely_trans := Moves.trans
  input_rely _ i l _ _ := input_moves i l
  input_idle i l _ h := h.moves (input_moves i l)
  yields_stable hm h := ⟨h.1.moves hm, h.2.moves hm⟩
  body_ok h hn := wp_body h hn

theorem idle_create (node : Node) (spec : Spec) (realm : Realm) (granted : Bool)
    (hl : spec.Loads) : Idle (create node spec realm granted) := by
  have hsafe : ∀ (l : Link), l.spec.Loads → l.marks = [] → l.root = none → l.myEph = none →
      l.myKem = none → l.contactSecret = l.spec.linkSecret → l.work = [] → l.queue = [] →
      l.queuedBytes = 0 → l.outboundQueuedSlices = 0 → l.authed = false → l.sendEpoch = 0 →
      l.sendCtr = 0 → l.recvEpoch = 0 → l.recvCtr = 0 → l.peerSaidGoodbye = false → Safe l := by
    intro l h1 h2 h3 h4 h5 h6 h7 h8 h9 h10 h11 h12 h13 h14 h15 h16
    refine ⟨⟨h1, ?_, ?_, ?_, ?_, ?_, ?_, ⟨?_, ?_, ?_⟩, ?_, ?_, ?_, ?_, ?_, ?_, ?_, ?_⟩, ?_, ?_, ?_⟩
    · rw [h2]; exact lawful_nil _ _
    · simp [h3]
    · exact fun _ => h6
    · simp [h4]
    · simp [h5]
    · simp [h7]
    · simp [h8, h9]
    · simp [h8]
    · simp [h8]
    · simp [h7, records]
    · simp [h10]
    · simp [h12, h7, records]
    · exact fun _ => ⟨h12, h13, h14, h15, by simp [h7, records]⟩
    · simp [h11]
    · simp [h2, sealedRecs]
    · simp [h2, SealsPast]
    · simp [h16]
    · simp [h2, acceptedRecs, endPlace, recvPos, Pos.place, h14, h15]
    · simp [h2, framesOf, acceptedRecs, h16]
    · simp [h2, framesOf]
  unfold create
  simp only
  split
  · split
    · exact .inl ⟨rfl, rfl, rfl, [], rfl, hsafe _ hl rfl rfl rfl rfl rfl rfl rfl rfl rfl rfl rfl rfl
        rfl rfl rfl⟩
    · exact .inr (.of_abort false (hsafe _ hl rfl rfl rfl rfl rfl rfl rfl rfl rfl rfl rfl rfl rfl
        rfl rfl))
  · exact .inl ⟨rfl, rfl, rfl, [], rfl, hsafe _ hl rfl rfl rfl rfl rfl rfl rfl rfl rfl rfl rfl rfl
      rfl rfl rfl⟩

end Link

namespace LinkMachine

variable {m : LinkMachine}

theorem Reachable.holds (h : m.Reachable) : Link.outline.Holds m := by
  obtain ⟨node, spec, realm, granted, evs, hl, rfl⟩ := h
  have h : Link.outline.Holds (start node spec realm granted) :=
    Link.idle_create node spec realm granted hl
  exact h.run evs (System.admitted_of_all _ (fun _ _ _ => trivial) _ _)

/-- The log of a link keeps to the laws, in every state of every run. -/
theorem Reachable.lawful (h : m.Reachable) :
    Lawful m.world.spec m.world.node.ownPk m.world.marks := by
  refine h.holds.world (fun _ _ hy => hy.1.lawful) fun l hi => ?_
  rcases hi with hf | hr
  · rw [hf.silent]
    exact lawful_nil _ _
  · exact hr.safe.lawful

end LinkMachine

end SeedTransport
