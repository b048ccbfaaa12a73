import SeedTransport.Core.Requests

set_option autoImplicit false

namespace SeedTransport

namespace ReqRes

/-! What holds of requests in every state of a run: what is proved of the frames that come in
and of the clock, one step lemma over all of it, and the laws read off the invariant. -/

variable {m : Prop} {r : ReqRes}

/-! ### Frames -/

theorem Inv.hear (h : r.Inv m none) (peer frame : Bytes) :
    Inv m none { r with got := r.got ++ [(peer, frame)] } := by
  have hb := h.books
  refine ⟨⟨hb.next, hb.ids, hb.known, hb.unsettled, hb.made, hb.all, hb.once, hb.hand, ?_, hb.sorted,
    hb.timed⟩, ⟨h.windows.nodup, h.windows.waits, h.windows.holds⟩, fun hm =>
    ⟨(h.metered hm).bytes, (h.metered hm).bound, (h.metered hm).unsent, (h.metered hm).made,
      (h.metered hm).order⟩⟩
  intro d payload hmem
  obtain ⟨corr, peer', frame', hreq, hgot, hres⟩ := hb.answered d payload hmem
  exact ⟨corr, peer', frame', hreq, List.mem_append_left _ hgot, hres⟩

theorem Inv.onFrame (h : r.Inv m none) (peer frame : Bytes) (fates : List (List Upset)) :
    (r.onFrame peer frame fates).Inv m none := by
  have h' := h.hear peer frame
  unfold ReqRes.onFrame
  simp only
  split
  · exact h'
  · rename_i hwidth
    split
    · exact h'
    · rename_i hkind
      cases hp : r.pending.get (readU32BE frame 1) with
      | none => exact h'
      | some p =>
        simp only
        split
        · exact h'
        · rename_i hpeer
          refine (h'.finish _ _ fates ?_).2.1
          intro b p' hb hp'
          cases hb
          have hpp : p' = p := by
            rw [show _ = some p from hp] at hp'
            exact (Option.some.inj hp').symm
          have hfrom : p.peer = peer := not_not.1 hpeer
          refine ⟨frame, ?_, not_lt.1 hwidth, hkind, rfl, rfl⟩
          rw [hpp, hfrom]
          simp

/-! ### The clock -/

/-- The deadline has passed. -/
def Overdue (t : Nat) (p : Pending) : Prop := ∃ due, p.due = some due ∧ due ≤ t

theorem wakeLoop_stop {t c : Nat} {p : Pending} (cs : List Nat) (fates : List (List (List Upset)))
    (hp : r.pending.get c = some p) (h : ¬ Overdue t p) : wakeLoop t (c :: cs) fates r = r := by
  cases hd : p.due with
  | none => simp [wakeLoop, hp, hd]
  | some due =>
    have hlt : t < due := not_le.1 fun hle => h ⟨due, hd, hle⟩
    simp [wakeLoop, hp, hd, hlt]

theorem wakeLoop_fail {t c : Nat} {p : Pending} (cs : List Nat) (fates : List (List (List Upset)))
    (hp : r.pending.get c = some p) (h : Overdue t p) :
    wakeLoop t (c :: cs) fates r =
      if (r.finish c none (fates.headD [])).1 = true then
        wakeLoop t cs fates.tail (r.finish c none (fates.headD [])).2
      else (r.finish c none (fates.headD [])).2 := by
  obtain ⟨due, hd, hle⟩ := h
  have hlt : ¬ t < due := not_lt.2 hle
  simp only [wakeLoop, hp, hd, hlt, decide_false, Bool.false_eq_true, if_false]
  rcases r.finish c none (fates.headD []) with ⟨ok, r'⟩
  cases ok <;> rfl

/-- The loop of `onWake` over what is left of the map as it was, `es`: every overdue request
is gone when it ends, and no other went but for a peer that went down. -/
theorem Inv.wakeLoop (t : Nat) (es : List (Nat × Pending)) (fates : List (List (List Upset)))
    (h : r.Inv m none) (hsorted : (es.map fun e => e.2.due).Pairwise DueLe)
    (hes : ∀ e ∈ es, ∀ p, r.pending.get e.1 = some p → p.due = e.2.due) :
    (wakeLoop t (es.map Prod.fst) fates r).Inv m none ∧
      (∀ e ∈ es, Overdue t e.2 → (wakeLoop t (es.map Prod.fst) fates r).pending.get e.1 = none) ∧
      (wakeLoop t (es.map Prod.fst) fates r).requests = r.requests ∧
      (∀ e ∈ (wakeLoop t (es.map Prod.fst) fates r).resolved, e ∈ r.resolved ∨ e.2 = answer none) ∧
      (∀ c, r.pending.get c = none →
        (wakeLoop t (es.map Prod.fst) fates r).pending.get c = none) ∧
      ∀ c p, r.pending.get c = some p → ¬ Overdue t p →
        (∀ f ∈ fates, ∀ fate ∈ f, Upset.down p.peer ∉ fate) →
        ∃ p', (wakeLoop t (es.map Prod.fst) fates r).pending.get c = some p' ∧ p'.d = p.d := by
  induction es generalizing fates r with
  | nil => exact ⟨h, by simp, rfl, fun e he => .inl he, fun c hc => hc, fun c p hp _ _ => ⟨p, hp, rfl⟩⟩
  | cons e es ih =>
    simp only [List.map_cons, List.pairwise_cons] at hsorted
    obtain ⟨hfirst, hsorted⟩ := hsorted
    have hes' : ∀ e' ∈ es, ∀ p, r.pending.get e'.1 = some p → p.due = e'.2.due :=
      fun e' he' => hes e' (by simp [he'])
    rw [List.map_cons]
    cases hp : r.pending.get e.1 with
    | none =>
      obtain ⟨h1, h2, h3, h4, h5, h6⟩ := ih fates h hsorted hes'
      simp only [ReqRes.wakeLoop, hp]
      refine ⟨h1, fun e' he' hover => ?_, h3, h4, h5, h6⟩
      rcases List.mem_cons.1 he' with rfl | he'
      · exact h5 _ hp
      · exact h2 e' he' hover
    | some p =>
      have hdue : p.due = e.2.due := hes e (by simp) p hp
      by_cases hover : Overdue t p
      case neg =>
        rw [wakeLoop_stop _ fates hp hover]
        -- Everything behind it is due no sooner.
        have hall : ∀ e' ∈ e :: es, ¬ Overdue t e'.2 := by
          rintro e' he' ⟨due', hd', hle⟩
          rcases List.mem_cons.1 he' with rfl | he'
          · exact hover ⟨due', hdue.trans hd', hle⟩
          · have hle' := hfirst e'.2.due (List.mem_map_of_mem he')
            rw [hd'] at hle'
            cases hd : e.2.due with
            | none =>
              rw [hd] at hle'
              exact hle'
            | some due =>
              rw [hd] at hle'
              exact hover ⟨due, hdue.trans hd, le_trans hle' hle⟩
        exact ⟨h, fun e' he' hover => absurd hover (hall e' he'), rfl, fun e he => .inl he,
          fun c hc => hc, fun c p hp _ _ => ⟨p, hp, rfl⟩⟩
      case pos =>
        rw [wakeLoop_fail _ fates hp hover]
        obtain ⟨hok, hinv, hgone, hkept⟩ := h.finish e.1 none (fates.headD []) (by simp)
        have hkept := hkept rfl
        generalize r.finish e.1 none (fates.headD []) = res at hok hinv hgone hkept
        obtain ⟨ok, r'⟩ := res
        simp only at hok hinv hgone hkept
        subst hok
        have hnone : ∀ c, r.pending.get c = none → r'.pending.get c = none := by
          intro c hc
          refine hkept.none ?_
          rw [OrdMap.get_delete, hc]
          simp
        have hdel : ∀ c q, c ≠ e.1 → r.pending.get c = some q →
            (r.pending.delete e.1).get c = some q := by
          intro c q hne hq
          rw [OrdMap.get_delete, if_neg hne]
          exact hq
        have hes'' : ∀ e' ∈ es, ∀ q, r'.pending.get e'.1 = some q → q.due = e'.2.due := by
          intro e' he' q hq
          obtain ⟨q', hq', -, -, hd⟩ := hkept.old e'.1 q hq
          rw [OrdMap.get_delete] at hq'
          split at hq'
          · cases hq'
          · exact hd ▸ hes' e' he' q' hq'
        obtain ⟨h1, h2, h3, h4, h5, h6⟩ := ih fates.tail hinv hsorted hes''
        rw [if_pos rfl]
        refine ⟨h1, fun e' he' hover => ?_, h3.trans hkept.requests,
          fun e he => (h4 e he).elim (hkept.failed e) .inr, fun c hc => h5 c (hnone c hc), ?_⟩
        · rcases List.mem_cons.1 he' with rfl | he'
          · exact h5 _ hgone
          · exact h2 e' he' hover
        · intro c q hq hnot hquiet
          have hne : c ≠ e.1 := by
            rintro rfl
            rw [hp] at hq
            cases hq
            exact hnot hover
          have hhead : ¬ ∃ fate ∈ fates.headD [], Upset.down q.peer ∈ fate := by
            rintro ⟨fate, hf, hu⟩
            cases fates with
            | nil => simp at hf
            | cons f fates => exact hquiet f (by simp) fate hf hu
          obtain ⟨q', hq', hd, hpeer⟩ := hkept.kept c q (hdel c q hne hq) hhead
          have hdue' : q'.due = q.due := by
            obtain ⟨q'', hq'', -, -, hd'⟩ := hkept.old c q' hq'
            rw [show _ = some q from hdel c q hne hq] at hq''
            cases hq''
            exact hd'.symm
          obtain ⟨q'', hq'', hd''⟩ := h6 c q' hq' (by simpa [Overdue, hdue'] using hnot)
            (fun f hf fate hfate => by
              rw [hpeer]
              exact hquiet f (List.mem_of_mem_tail hf) fate hfate)
          exact ⟨q'', hq'', hd''.trans hd⟩

theorem entries_due (r : ReqRes) : ∀ e ∈ r.pending.entries, ∀ p, r.pending.get e.1 = some p →
    p.due = e.2.due := by
  intro e he p hp
  rw [(OrdMap.get_eq_some _ e.1 e.2).2 he] at hp
  cases hp
  rfl

theorem Inv.onWake (h : r.Inv m none) (fates : List (List (List Upset))) :
    (r.onWake fates).Inv m none := by
  unfold ReqRes.onWake
  split
  · exact h
  · exact (h.wakeLoop r.now r.pending.entries fates h.books.sorted r.entries_due).1

/-- What a wake does to one request: it fails an overdue one and leaves any other. -/
theorem Inv.wakes (h : r.Inv m none) (fates : List (List (List Upset))) {c : Nat} {p : Pending}
    (hp : r.pending.get c = some p) :
    (Overdue r.now p → (p.d, answer none) ∈ (r.onWake fates).resolved) ∧
      (¬ Overdue r.now p → (∀ f ∈ fates, ∀ fate ∈ f, Upset.down p.peer ∉ fate) →
        ∃ p', (r.onWake fates).pending.get c = some p' ∧ p'.d = p.d) := by
  have ht := h.books.timed c p hp
  unfold ReqRes.onWake
  split
  · rename_i hzero
    refine ⟨?_, fun _ _ => ⟨p, hp, rfl⟩⟩
    rintro ⟨due, hdue, -⟩
    rw [ht.1 hzero] at hdue
    cases hdue
  · have hmem := (OrdMap.get_eq_some _ _ _).1 hp
    obtain ⟨h1, h2, h3, h4, -, h6⟩ := h.wakeLoop r.now r.pending.entries fates h.books.sorted
      r.entries_due
    refine ⟨fun hover => ?_, h6 c p hp⟩
    have hgone := h2 _ hmem hover
    have hknown := h.books.known c p hp
    have hlt : p.d < (ReqRes.wakeLoop r.now (r.pending.entries.map Prod.fst) fates r).requests.length := by
      rw [h3]
      exact (List.getElem?_eq_some_iff.1 hknown).1
    -- It is resolved, and was not before, so it failed.
    rcases h1.books.all p.d hlt (by simp) with hs | ⟨c', p', hp', hd⟩
    · obtain ⟨e, he, hd⟩ := List.mem_map.1 hs
      rcases h4 e he with hold | hnew
      · exact absurd (List.mem_map.2 ⟨e, hold, hd⟩) (h.books.unsettled c p hp).1
      · have : e = (p.d, answer none) := Prod.ext hd hnew
        exact this ▸ he
    · have hknown' := h1.books.known c' p' hp'
      rw [hd, h3, hknown] at hknown'
      have hc : c = c' := (Prod.mk.inj (Option.some.inj hknown')).1
      rw [← hc, show _ = none from hgone] at hp'
      cases hp'

/-! ### Runs -/

/-- What a request has to find for its event to be allowed. The meters of the windows ask for
more than the rest, `m`. -/
def Allowed (m : Prop) (r : ReqRes) : Event → Prop
  | .request peer _ _ noReply _ => noReply = false → r.Free ∧ (m → r.Anew peer)
  | _ => True

/-- Every event of a run is allowed where it happens. -/
def Keeps (m : Prop) : ReqRes → List Event → Prop
  | _, [] => True
  | r, ev :: evs => Allowed m r ev ∧ Keeps m (r.step ev) evs

theorem Inv.step (h : r.Inv m none) {ev : Event} (hev : Allowed m r ev) : (r.step ev).Inv m none := by
  have hcongr : ∀ r' : ReqRes, r'.pending = r.pending → r'.relayed = r.relayed →
      r'.nextCorr = r.nextCorr → r'.requests = r.requests → r'.resolved = r.resolved →
      r'.got = r.got → r'.requestTimeoutMs = r.requestTimeoutMs → r.now ≤ r'.now →
      r'.puts = r.puts → r'.maxFrameBytes = r.maxFrameBytes → r'.Inv m none := by
    intro r' hp hw hn hq hr hg ht hnow hputs hmax
    refine ⟨h.books.congr hp hn hq hr hg ht hnow, ⟨?_, ?_, ?_⟩, fun hm => ⟨?_, ?_, ?_, ?_, ?_⟩⟩
    · rw [hw]; exact h.windows.nodup
    · rw [hw, hp]; exact h.windows.waits
    · rw [hw, hp]; exact h.windows.holds
    · rw [hw, hp]; exact (h.metered hm).bytes
    · rw [hp, hmax]; exact (h.metered hm).bound
    · rw [hp]; exact (h.metered hm).unsent
    · rw [hputs, hq]; exact (h.metered hm).made
    · simp only [putsOf, waitingOf, hputs, hq, hw, hp]; exact (h.metered hm).order
  cases ev with
  | request peer proto payload noReply fates =>
    exact h.request peer proto payload noReply fates (fun hn => (hev hn).1) fun hn => (hev hn).2
  | frame peer frame fates => exact h.onFrame peer frame fates
  | unanswerable corr fates => exact (h.finish corr none fates (by simp)).2.1
  | wake fates => exact h.onWake fates
  | elapse ms => exact hcongr _ rfl rfl rfl rfl rfl rfl rfl (Nat.le_add_right _ _) rfl rfl
  | direct peer fates =>
    have h' := hcongr { r with route := Function.update r.route peer .direct }
      rfl rfl rfl rfl rfl rfl rfl le_rfl rfl rfl
    exact (h'.pumpRelayed peer fates).2
  | route peer route => exact hcongr _ rfl rfl rfl rfl rfl rfl rfl le_rfl rfl rfl
  | down peer => exact h.upset (.down peer)

theorem Inv.run (h : r.Inv m none) (evs : List Event) (hevs : Keeps m r evs) :
    (r.run evs).Inv m none := by
  induction evs generalizing r with
  | nil => exact h
  | cons ev evs ih => exact ih (h.step hevs.1) hevs.2

theorem inv_create (maxFrameBytes requestTimeoutMs : Nat) :
    (create maxFrameBytes requestTimeoutMs).Inv m none := by
  refine ⟨books_create _ _, ⟨?_, ?_, ?_⟩, fun _ => ⟨?_, ?_, ?_, ?_, ?_⟩⟩
  · intro peer q hq; cases hq
  · intro peer q c p hq; cases hq
  · intro c p hp; cases hp
  · intro peer q hq; cases hq
  · exact fun peer => .inl (Nat.zero_le _)
  · intro c p hp; cases hp
  · intro d hd; cases hd
  · exact fun peer => List.Pairwise.nil

theorem free_of_entries (h : r.pending.get r.nextCorr = none)
    (hw : ∀ e ∈ r.relayed.entries, r.nextCorr ∉ e.2.waiting) : r.Free :=
  ⟨h, fun peer q hq => hw (peer, q) ((OrdMap.get_eq_some _ _ _).1 hq)⟩

/-! ### Correlation -/

/-- Requests and answers are matched up. -/
structure Correlated (r : ReqRes) : Prop where
  /-- Requests that await an answer differ in their ids, none of them 0. -/
  distinct : ∀ (d d' : Nat) (v v' : Nat × Bytes), r.requests[d]? = some v → d ∉ r.settled →
    r.requests[d']? = some v' → d' ∉ r.settled → v.1 ≠ 0 ∧ (v.1 = v'.1 → d = d')
  /-- A deferred is resolved exactly once, or its request is in the map. -/
  once : ∀ d, d < r.requests.length →
    (r.settled.count d = 1 ∧ ∀ c p, r.pending.get c = some p → p.d ≠ d) ∨
      (r.settled.count d = 0 ∧ ∃ c p, r.pending.get c = some p ∧ p.d = d)
  /-- `[1][payload]` is what a response carried that came from the peer it was asked of. -/
  answered : ∀ d payload, (d, 1 :: payload) ∈ r.resolved → ∃ corr peer frame,
    r.requests[d]? = some (corr, peer) ∧ (peer, frame) ∈ r.got ∧ Response frame corr payload
  ordered : (r.pending.entries.map fun e => e.2.due).Pairwise DueLe
  /-- A wake fails the requests whose deadline has passed, and only these unless a link dies
  under it. -/
  wakes : ∀ fates c p, r.pending.get c = some p →
    (Overdue r.now p → (p.d, answer none) ∈ (r.onWake fates).resolved) ∧
    (¬ Overdue r.now p → (∀ f ∈ fates, ∀ fate ∈ f, Upset.down p.peer ∉ fate) →
      ∃ p', (r.onWake fates).pending.get c = some p' ∧ p'.d = p.d)

theorem Inv.correlated (h : r.Inv m none) : r.Correlated := by
  have hb := h.books
  have hwaits : ∀ (d : Nat) (v : Nat × Bytes), r.requests[d]? = some v → d ∉ r.settled →
      ∃ p, r.pending.get v.1 = some p ∧ p.d = d := by
    intro d v hv hd
    rcases hb.all d (List.getElem?_eq_some_iff.1 hv).1 (by simp) with hs | ⟨c, p, hp, rfl⟩
    · exact absurd hs hd
    · have hknown := hb.known c p hp
      rw [hv] at hknown
      rw [Option.some.inj hknown]
      exact ⟨p, hp, rfl⟩
  refine ⟨?_, ?_, hb.answered, hb.sorted, fun fates c p hp => h.wakes fates hp⟩
  · intro d d' v v' hv hd hv' hd'
    obtain ⟨p, hp, rfl⟩ := hwaits d v hv hd
    obtain ⟨p', hp', rfl⟩ := hwaits d' v' hv' hd'
    refine ⟨fun hzero => ?_, fun heq => ?_⟩
    · have := (hb.ids v.1 p hp).1
      omega
    · rw [heq, hp'] at hp
      rw [Option.some.inj hp]
  · intro d hd
    by_cases hs : d ∈ r.settled
    · refine .inl ⟨List.count_eq_one_of_mem hb.once hs, ?_⟩
      rintro c p hp rfl
      exact (hb.unsettled c p hp).1 hs
    · exact .inr ⟨List.count_eq_zero_of_not_mem hs, (hb.all d hd (by simp)).resolve_left hs⟩

/-- In a run that takes no id for a request while the id is in use, requests and answers are
matched up in the end, and so at every point. -/
theorem requests_correlated (maxFrameBytes requestTimeoutMs : Nat) (evs : List Event)
    (h : Keeps False (create maxFrameBytes requestTimeoutMs) evs) :
    ((create maxFrameBytes requestTimeoutMs).run evs).Correlated :=
  ((inv_create _ _).run evs h).correlated

/-- Two requests, the first answered. -/
theorem requests_correlated_two :
    ((create 100 0).run [.route [7] .direct, .request [7] [] [] false [], .request [7] [] [] false [],
      .frame [7] [1, 0, 0, 0, 1, 9] []]).Correlated ∧
    ((create 100 0).run [.route [7] .direct, .request [7] [] [] false [], .request [7] [] [] false [],
      .frame [7] [1, 0, 0, 0, 1, 9] []]).resolved = [(0, [1, 9])] :=
  ⟨requests_correlated _ _ _ ⟨trivial,
    fun _ => ⟨free_of_entries (by decide) (by decide), False.elim⟩,
    fun _ => ⟨free_of_entries (by decide) (by decide), False.elim⟩, trivial, trivial⟩, by decide⟩

/-- The response of request `corr`, with nothing in it. -/
def emptyResponse (corr : Nat) : Bytes := KIND_RES :: writeU32BE corr

/-- One request to `peer`, answered if its id is `corr`. -/
def lap (peer : Bytes) (corr : Nat) : List Event :=
  [.request peer [] [] false [], .frame peer (emptyResponse corr) []]

/-- A request that is never answered, `n` more that are, and another. -/
def around (peer : Bytes) (n : Nat) : List Event :=
  [.route peer .direct, .request peer [] [] false []] ++
    ((List.range n).flatMap fun k => lap peer (k + 2)) ++ [.request peer [] [] false []]

/-- The state after `n` laps: the first request is still in the map. -/
structure Lapped (peer : Bytes) (n : Nat) (r : ReqRes) : Prop where
  route : r.route peer = .direct
  timeout : r.requestTimeoutMs = 0
  pending : r.pending.entries = [(1, ⟨peer, 0, none, 0, none⟩)]
  next : r.nextCorr = if n = 2 ^ 32 - 2 then 1 else n + 2
  requests : r.requests.length = n + 1
  unsettled : 0 ∉ r.settled

theorem Lapped.request {peer : Bytes} {n : Nat} {r : ReqRes} (h : Lapped peer n r) :
    r.request peer [] [] false [] = r.enter peer none := by
  simp [ReqRes.request, h.route, put]

theorem Lapped.lap {peer : Bytes} {n : Nat} {r : ReqRes} (h : Lapped peer n r)
    (hn : n < 2 ^ 32 - 2) : Lapped peer (n + 1) (r.run (lap peer (n + 2))) := by
  have hnext : r.nextCorr = n + 2 := by rw [h.next, if_neg (by omega)]
  have hfree : r.pending.get (n + 2) = none := by simp [OrdMap.get, h.pending]
  have hread : readU32BE (emptyResponse (n + 2)) 1 = n + 2 := by
    have := readU32BE_append [KIND_RES] (writeU32BE (n + 2) ++ []) 0
    rw [readU32BE_write] at this
    simp only [List.append_nil, List.length_singleton, Nat.add_zero] at this
    rw [emptyResponse, ← List.singleton_append, this]
    omega
  have hent : (r.enter peer none).pending.entries =
      [(1, ⟨peer, 0, none, 0, none⟩), (n + 2, ⟨peer, n + 1, none, 0, none⟩)] := by
    simp only [enter, hnext]
    rw [OrdMap.entries_set_new _ _ _ hfree, h.pending, h.requests]
    simp [h.timeout]
  have hget : (r.enter peer none).pending.get (n + 2) = some ⟨peer, n + 1, none, 0, none⟩ :=
    (OrdMap.get_eq_some _ _ _).2 (by simp [hent])
  have hrun : r.run (ReqRes.lap peer (n + 2)) = { r.enter peer none with
      got := r.got ++ [(peer, emptyResponse (n + 2))]
      pending := (r.enter peer none).pending.delete (n + 2)
      resolved := r.resolved ++ [(n + 1, [1])] } := by
    simp only [ReqRes.lap, run, List.foldl_cons, List.foldl_nil, step, h.request]
    unfold ReqRes.onFrame
    have hlen : ¬ (emptyResponse (n + 2)).length < RES_HEAD_LEN := by
      simp [emptyResponse, RES_HEAD_LEN]
    have hkind : ¬ (emptyResponse (n + 2)).headD 0 &&& KIND_RES = 0 := by
      simp [emptyResponse, KIND_RES]
    have hdrop : (emptyResponse (n + 2)).drop RES_HEAD_LEN = [] := by
      simp [emptyResponse, RES_HEAD_LEN]
    simp only [hlen, hkind, hread, hget, hdrop, if_false, finish, answer]
    simp [enter]
  rw [hrun]
  refine ⟨h.route, h.timeout, ?_, ?_, ?_, ?_⟩
  · simp only [OrdMap.delete, hent]
    simp
  · simp only [enter, hnext, nextId]
    split <;> split <;> omega
  · simp [enter, h.requests]
  · have := h.unsettled
    simp only [settled] at this ⊢
    simp [this]

theorem lapped (peer : Bytes) (n : Nat) (hn : n ≤ 2 ^ 32 - 2) :
    Lapped peer n ((create 100 0).run ([.route peer .direct, .request peer [] [] false []] ++
      (List.range n).flatMap fun k => lap peer (k + 2))) := by
  induction n with
  | zero =>
    constructor <;> simp [run, step, create, ReqRes.request, enter, put, OrdMap.empty, OrdMap.set,
      OrdMap.put, nextId, settled]
  | succ n ih =>
    have := (ih (by omega)).lap (by omega)
    rw [List.range_succ, List.flatMap_append, ← List.append_assoc, run, List.foldl_append,
      List.flatMap_singleton]
    exact this

theorem around_run (peer : Bytes) (n : Nat) (hn : n ≤ 2 ^ 32 - 2) :
    ∃ r, Lapped peer n r ∧ (create 100 0).run (around peer n) = r.enter peer none := by
  have hl := lapped peer n hn
  refine ⟨_, hl, ?_⟩
  rw [around, run, List.foldl_append]
  exact hl.request

theorem lost_around (peer : Bytes) (n : Nat) (hn : n = 2 ^ 32 - 2) :
    ¬ ((create 100 0).run (around peer n)).Correlated := by
  intro h
  obtain ⟨r, hl, hrun⟩ := around_run peer n hn.le
  rw [hrun] at h
  have hnext : r.nextCorr = 1 := by rw [hl.next, if_pos hn]
  rcases h.once 0 (by simp [enter]) with ⟨hcount, -⟩ | ⟨-, c, p, hp, hd⟩
  · have hzero : r.settled.count 0 = 0 := List.count_eq_zero_of_not_mem hl.unsettled
    have hsame : (r.enter peer none).settled = r.settled := rfl
    rw [hsame, hzero] at hcount
    omega
  · have hent : (r.enter peer none).pending.entries =
        [(1, ⟨peer, r.requests.length, none, 0, none⟩)] := by
      simp [enter, OrdMap.set, hl.pending, OrdMap.put, hnext, hl.timeout]
    have hmem := (OrdMap.get_eq_some _ _ _).1 hp
    rw [hent, List.mem_singleton] at hmem
    have hd' : p.d = r.requests.length := by rw [(Prod.mk.inj hmem).2]
    rw [hl.requests] at hd'
    omega

/-- With no deadline, the first request is lost when the ids come round to its own. -/
theorem id_taken_twice : ¬ ((create 100 0).run (around [7] (2 ^ 32 - 2))).Correlated :=
  lost_around [7] _ rfl

/-! ### The windows of relayed peers -/

/-- The windows agree with the requests they meter. -/
structure Balanced (r : ReqRes) : Prop where
  bytes : ∀ peer q, r.relayed.get peer = some q → 0 ≤ q.bytes ∧ q.bytes = total peer r.pending
  room : ∀ peer, r.route peer = .relayed →
    total peer r.pending ≤ r.maxFrameBytes ∨ sent peer r.pending = 1
  held : ∀ c p, r.pending.get c = some p → p.held ≠ none →
    ∃ q, r.relayed.get p.peer = some q ∧ q.waiting.count c = 1
  /-- What waited and went out, then what waits still, is in the order it was made. -/
  order : ∀ peer, (r.putsOf peer ++ r.waitingOf peer).Pairwise (· < ·)

theorem Inv.balanced (h : r.Inv True none) : r.Balanced := by
  have hme := h.metered trivial
  refine ⟨?_, ?_, ?_, hme.order⟩
  · intro peer q hq
    have := hme.bytes peer q hq
    exact ⟨by omega, this⟩
  · intro peer _
    rcases hme.bound peer with hle | hle
    · exact .inl hle
    · by_cases hone : sent peer r.pending = 1
      · exact .inr hone
      · left
        have hzero : sent peer r.pending = 0 := by omega
        have hall : ∀ e ∈ r.pending.entries,
            (if e.2.peer = peer then e.2.relayedBytes else 0) = 0 := by
          intro e he
          have h0 := List.sum_eq_zero_iff.1 hzero _ (List.mem_map_of_mem he)
          by_cases hp : e.2.peer = peer
          · simp only [hp, true_and, ite_eq_right_iff, one_ne_zero, imp_false, not_lt] at h0
            simpa [hp] using h0
          · simp [hp]
        have : total peer r.pending = 0 := by
          refine List.sum_eq_zero_iff.2 fun n hn => ?_
          obtain ⟨e, he, rfl⟩ := List.mem_map.1 hn
          exact hall e he
        omega
  · intro c p hp hheld
    obtain ⟨q, hq, hc⟩ := h.windows.holds c p hp hheld
    exact ⟨q, hq, List.count_eq_one_of_mem (h.windows.nodup _ q hq) hc⟩

/-- In a run that opens no window for a peer with relayed requests unanswered, and takes no id
in use, the windows are balanced throughout. -/
theorem relay_windows_balanced (maxFrameBytes requestTimeoutMs : Nat) (evs : List Event)
    (h : Keeps True (create maxFrameBytes requestTimeoutMs) evs) :
    ((create maxFrameBytes requestTimeoutMs).run evs).Balanced :=
  ((inv_create _ _).run evs h).balanced

/-- The second of two requests waits, and goes out when the first is answered. -/
theorem relay_windows_balanced_two :
    ((create 10 0).run [.route [7] .relayed, .request [7] [] [] false [], .request [7] [] [] false [],
      .frame [7] [1, 0, 0, 0, 1, 9] []]).Balanced ∧
    ((create 10 0).run [.route [7] .relayed, .request [7] [] [] false [], .request [7] [] [] false [],
      .frame [7] [1, 0, 0, 0, 1, 9] []]).puts = [0, 1] :=
  ⟨relay_windows_balanced _ _ _ ⟨trivial,
    fun _ => ⟨free_of_entries (by decide) (by decide), fun _ _ _ => by decide⟩,
    fun _ => ⟨free_of_entries (by decide) (by decide), fun _ _ hnone => absurd hnone (by decide)⟩,
    trivial, trivial⟩, by decide⟩

/-- A direct link that comes and goes takes the window with it while its request waits for
an answer: the answer is then taken off the next window, which never held it. -/
theorem window_below_zero :
    ¬ ((create 100 0).run [.route [7] .relayed, .request [7] [] [1, 2, 3] false [],
      .direct [7] [], .route [7] .relayed, .request [7] [] [] false [],
      .frame [7] [1, 0, 0, 0, 1] []]).Balanced := by
  intro h
  have hq : ((create 100 0).run [.route [7] .relayed, .request [7] [] [1, 2, 3] false [],
      .direct [7] [], .route [7] .relayed, .request [7] [] [] false [],
      .frame [7] [1, 0, 0, 0, 1] []]).relayed.get [7] = some ⟨-3, []⟩ := by decide
  exact absurd (h.bytes [7] _ hq).1 (by decide)

end ReqRes

end SeedTransport
