import SeedTransport.Core.ReqRes

set_option autoImplicit false

namespace SeedTransport

namespace ReqRes

/-! Requests and their answers over whole runs: what the map of outstanding requests, the
deferreds and the windows of relayed peers have to do with one another. -/

/-! ### A peer down -/

/-- The loop of `peerDown` over the entries `es` that are left. -/
theorem dropAll (peer : Bytes) (es kept : List (Nat × Pending)) (r : ReqRes)
    (hr : r.pending.entries = kept ++ es) :
    ((es.map Prod.fst).foldl (dropFor peer) r).pending.entries =
        kept ++ es.filter (fun e => decide (e.2.peer ≠ peer)) ∧
      (es.map Prod.fst).foldl (dropFor peer) r =
        { r with
          pending := ((es.map Prod.fst).foldl (dropFor peer) r).pending
          resolved := r.resolved ++
            (es.filter fun e => decide (e.2.peer = peer)).map fun e => (e.2.d, answer none) } := by
  induction es generalizing kept r with
  | nil => simp [hr]
  | cons e es ih =>
    have hget : r.pending.get e.1 = some e.2 := (OrdMap.get_eq_some _ _ _).2 (by simp [hr])
    by_cases he : e.2.peer = peer
    · have hstep : dropFor peer r e.1 = r.settle e.1 e.2 none := by simp [dropFor, hget, he]
      have hnodup : ((kept ++ e :: es).map Prod.fst).Nodup := hr ▸ r.pending.nodup
      have hdel : (r.settle e.1 e.2 none).pending.entries = kept ++ es := by
        simp only [settle, OrdMap.delete, hr]
        rw [List.map_append, List.map_cons, List.nodup_append, List.nodup_cons] at hnodup
        obtain ⟨-, ⟨hes, -⟩, hkept⟩ := hnodup
        rw [List.filter_append, List.filter_cons_of_neg (by simp)]
        congr 1
        · refine List.filter_eq_self.2 fun a ha => ?_
          simpa using hkept a.1 (List.mem_map_of_mem ha) e.1 (by simp)
        · refine List.filter_eq_self.2 fun a ha => ?_
          have : a.1 ≠ e.1 := fun hae => hes (hae ▸ List.mem_map_of_mem ha)
          simpa using this
      obtain ⟨h1, h2⟩ := ih kept _ hdel
      simp only [List.map_cons, List.foldl_cons, hstep]
      refine ⟨by rw [h1]; simp [he], ?_⟩
      rw [h2]
      simp [settle, he]
    · have hstep : dropFor peer r e.1 = r := by simp [dropFor, hget, he]
      obtain ⟨h1, h2⟩ := ih (kept ++ [e]) r (by simp [hr])
      simp only [List.map_cons, List.foldl_cons, hstep]
      refine ⟨by rw [h1]; simp [he], ?_⟩
      rw [h2]
      simp [he]

/-- What `peerDown` does: the peer's requests are answered `[0]` and its window goes. -/
theorem peerDown_spec (peer : Bytes) (r : ReqRes) :
    (r.peerDown peer).pending.entries =
        r.pending.entries.filter (fun e => decide (e.2.peer ≠ peer)) ∧
      r.peerDown peer =
        { r with
          pending := (r.peerDown peer).pending
          relayed := r.relayed.delete peer
          resolved := r.resolved ++
            (r.pending.entries.filter fun e => decide (e.2.peer = peer)).map
              fun e => (e.2.d, answer none) } :=
  dropAll peer r.pending.entries [] { r with relayed := r.relayed.delete peer } rfl

theorem peerDown_get (peer : Bytes) (r : ReqRes) (corr : Nat) (p : Pending) :
    (r.peerDown peer).pending.get corr = some p ↔ r.pending.get corr = some p ∧ p.peer ≠ peer := by
  rw [OrdMap.get_eq_some, (peerDown_spec peer r).1, List.mem_filter, ← OrdMap.get_eq_some]
  simp

/-! ### The deferreds -/

/-- No deadline is the last one. -/
def DueLe : Option Nat → Option Nat → Prop
  | _, none => True
  | none, some _ => False
  | some a, some b => a ≤ b

/-- The deferreds that were resolved. -/
def settled (r : ReqRes) : List Nat := r.resolved.map Prod.fst

/-- A response frame for request `corr`. -/
structure Response (frame : Bytes) (corr : Nat) (payload : Bytes) : Prop where
  width : RES_HEAD_LEN ≤ frame.length
  kind : frame.headD 0 &&& KIND_RES ≠ 0
  corr : readU32BE frame 1 = corr
  payload : frame.drop RES_HEAD_LEN = payload

/-- The map of outstanding requests against the deferreds, with deferred `x` in hand: out of
the map, and not resolved yet. -/
structure Books (x : Option Nat) (r : ReqRes) : Prop where
  next : 1 ≤ r.nextCorr ∧ r.nextCorr < 2 ^ 32
  ids : ∀ corr p, r.pending.get corr = some p → 1 ≤ corr ∧ corr < 2 ^ 32
  known : ∀ corr p, r.pending.get corr = some p → r.requests[p.d]? = some (corr, p.peer)
  unsettled : ∀ corr p, r.pending.get corr = some p → p.d ∉ r.settled ∧ some p.d ≠ x
  made : ∀ d ∈ r.settled, d < r.requests.length
  all : ∀ d, d < r.requests.length → some d ≠ x →
    d ∈ r.settled ∨ ∃ corr p, r.pending.get corr = some p ∧ p.d = d
  once : r.settled.Nodup
  hand : ∀ d, x = some d → d < r.requests.length ∧ d ∉ r.settled
  answered : ∀ d payload, (d, 1 :: payload) ∈ r.resolved → ∃ corr peer frame,
    r.requests[d]? = some (corr, peer) ∧ (peer, frame) ∈ r.got ∧ Response frame corr payload
  sorted : (r.pending.entries.map fun e => e.2.due).Pairwise DueLe
  timed : ∀ corr p, r.pending.get corr = some p →
    (r.requestTimeoutMs = 0 → p.due = none) ∧
    (0 < r.requestTimeoutMs → ∃ t, p.due = some t ∧ t ≤ r.now + r.requestTimeoutMs)

theorem books_create (maxFrameBytes requestTimeoutMs : Nat) :
    (create maxFrameBytes requestTimeoutMs).Books none := by
  constructor <;> simp [create, settled, OrdMap.get_empty] <;> simp [OrdMap.empty]

section Books

variable {x : Option Nat} {r r' : ReqRes}

theorem Books.congr (h : r.Books x) (hp : r'.pending = r.pending) (hn : r'.nextCorr = r.nextCorr)
    (hq : r'.requests = r.requests) (hr : r'.resolved = r.resolved) (hg : r'.got = r.got)
    (ht : r'.requestTimeoutMs = r.requestTimeoutMs) (hw : r.now ≤ r'.now) : r'.Books x := by
  have hs : r'.settled = r.settled := by simp [settled, hr]
  constructor
  · rw [hn]; exact h.next
  · rw [hp]; exact h.ids
  · rw [hp, hq]; exact h.known
  · rw [hp, hs]; exact h.unsettled
  · rw [hs, hq]; exact h.made
  · rw [hq, hs, hp]; exact h.all
  · rw [hs]; exact h.once
  · rw [hq, hs]; exact h.hand
  · rw [hr, hq, hg]; exact h.answered
  · rw [hp]; exact h.sorted
  · rw [hp, ht]
    intro corr p hget
    obtain ⟨h1, h2⟩ := h.timed corr p hget
    refine ⟨h1, fun hpos => ?_⟩
    obtain ⟨t, hdue, hle⟩ := h2 hpos
    exact ⟨t, hdue, by omega⟩

/-- Two requests with one deferred are one. -/
theorem Books.one (h : r.Books x) {corr corr' : Nat} {p p' : Pending}
    (hp : r.pending.get corr = some p) (hp' : r.pending.get corr' = some p') (hd : p.d = p'.d) :
    corr = corr' := by
  have h1 := h.known corr p hp
  have h2 := h.known corr' p' hp'
  rw [hd, h2] at h1
  exact (Prod.mk.inj (Option.some.inj h1)).1.symm

/-- A request is taken out of the map. -/
theorem Books.take (h : r.Books none) {corr : Nat} {p : Pending}
    (hp : r.pending.get corr = some p) :
    Books (some p.d) { r with pending := r.pending.delete corr } := by
  have hget : ∀ c q, (r.pending.delete corr).get c = some q → c ≠ corr ∧ r.pending.get c = some q := by
    intro c q hq
    rw [OrdMap.get_delete] at hq
    split at hq
    · cases hq
    · exact ⟨by assumption, hq⟩
  constructor
  · exact h.next
  · exact fun c q hq => h.ids c q (hget c q hq).2
  · exact fun c q hq => h.known c q (hget c q hq).2
  · intro c q hq
    obtain ⟨hne, hq⟩ := hget c q hq
    refine ⟨(h.unsettled c q hq).1, fun heq => hne (h.one hq hp (Option.some.inj heq))⟩
  · exact h.made
  · intro d hd hx
    rcases h.all d hd (by simp) with hs | ⟨c, q, hq, rfl⟩
    · exact .inl hs
    · refine .inr ⟨c, q, ?_, rfl⟩
      rw [OrdMap.get_delete, if_neg]
      · exact hq
      · rintro rfl
        rw [hp] at hq
        cases hq
        exact hx rfl
  · exact h.once
  · intro d hd
    cases hd
    exact ⟨(List.getElem?_eq_some_iff.1 (h.known corr p hp)).1, (h.unsettled corr p hp).1⟩
  · exact h.answered
  · exact h.sorted.sublist (List.filter_sublist.map _)
  · exact fun c q hq => h.timed c q (hget c q hq).2

/-- The request in hand is answered. -/
theorem Books.resolve {d : Nat} (h : r.Books (some d)) {payload : Option Bytes}
    (ha : ∀ b, payload = some b → ∃ corr peer frame, r.requests[d]? = some (corr, peer) ∧
      (peer, frame) ∈ r.got ∧ Response frame corr b) :
    Books none { r with resolved := r.resolved ++ [(d, answer payload)] } := by
  have hs : ({ r with resolved := r.resolved ++ [(d, answer payload)] } : ReqRes).settled =
      r.settled ++ [d] := by simp [settled]
  obtain ⟨hd, hnew⟩ := h.hand d rfl
  constructor
  · exact h.next
  · exact h.ids
  · exact h.known
  · intro c q hq
    obtain ⟨h1, h2⟩ := h.unsettled c q hq
    rw [hs]
    refine ⟨?_, by simp⟩
    simp only [List.mem_append, List.mem_singleton, not_or]
    exact ⟨h1, fun heq => h2 (by rw [heq])⟩
  · rw [hs]
    intro d' hd'
    rcases List.mem_append.1 hd' with hd' | hd'
    · exact h.made d' hd'
    · rw [List.mem_singleton.1 hd']
      exact hd
  · intro d' hd' _
    rw [hs]
    by_cases heq : d' = d
    · exact .inl (by simp [heq])
    · rcases h.all d' hd' (by simpa using heq) with hset | hp
      · exact .inl (by simp [hset])
      · exact .inr hp
  · rw [hs, List.nodup_append]
    refine ⟨h.once, by simp, fun a ha b hb hab => ?_⟩
    simp only [List.mem_singleton] at hb
    exact hnew (by rw [← hb, ← hab]; exact ha)
  · simp
  · intro d' b hmem
    rcases List.mem_append.1 hmem with hmem | hmem
    · exact h.answered d' b hmem
    · simp only [List.mem_singleton, Prod.mk.injEq] at hmem
      obtain ⟨rfl, hb⟩ := hmem
      cases payload with
      | none => simp [answer] at hb
      | some c =>
        simp only [answer, List.cons.injEq, true_and] at hb
        exact hb ▸ ha c rfl
  · exact h.sorted
  · exact h.timed

/-- A held request goes out. -/
theorem Books.unhold (h : r.Books x) {corr : Nat} {p : Pending} (direct : Bool) (frame : Bytes)
    (hp : r.pending.get corr = some p) : (unhold corr p direct frame r).Books x := by
  have hget : ∀ c q, (ReqRes.unhold corr p direct frame r).pending.get c = some q →
      ∃ q', r.pending.get c = some q' ∧ q.d = q'.d ∧ q.peer = q'.peer ∧ q.due = q'.due := by
    intro c q hq
    simp only [ReqRes.unhold, OrdMap.get_set] at hq
    split at hq
    · rename_i hc
      cases hq
      exact ⟨p, hc ▸ hp, rfl, rfl, rfl⟩
    · exact ⟨q, hq, rfl, rfl, rfl⟩
  constructor
  · exact h.next
  · intro c q hq
    obtain ⟨q', hq', -⟩ := hget c q hq
    exact h.ids c q' hq'
  · intro c q hq
    obtain ⟨q', hq', hd, hpeer, -⟩ := hget c q hq
    rw [hd, hpeer]
    exact h.known c q' hq'
  · intro c q hq
    obtain ⟨q', hq', hd, -⟩ := hget c q hq
    rw [hd]
    exact h.unsettled c q' hq'
  · exact h.made
  · intro d hd hx
    rcases h.all d hd hx with hs | ⟨c, q, hq, rfl⟩
    · exact .inl hs
    · by_cases hc : c = corr
      · subst hc
        rw [hp] at hq
        cases hq
        exact .inr ⟨c, _, OrdMap.get_set_self _ _ _, rfl⟩
      · exact .inr ⟨c, q, by simp only [ReqRes.unhold, OrdMap.get_set, if_neg hc, hq], rfl⟩
  · exact h.once
  · exact h.hand
  · exact h.answered
  · have hmap := OrdMap.map_set_same r.pending (fun e => e.2.due) hp
      (w := { p with held := none, relayedBytes := if direct then p.relayedBytes else frame.length })
      rfl
    simp only [ReqRes.unhold, hmap]
    exact h.sorted
  · intro c q hq
    obtain ⟨q', hq', -, -, hdue⟩ := hget c q hq
    rw [hdue]
    exact h.timed c q' hq'

theorem Books.peerDown (h : r.Books x) (peer : Bytes) : (r.peerDown peer).Books x := by
  obtain ⟨hentries, hrest⟩ := peerDown_spec peer r
  have hget := peerDown_get peer r
  generalize hr' : r.peerDown peer = r' at *
  have hs : r'.settled = r.settled ++
      (r.pending.entries.filter fun e => decide (e.2.peer = peer)).map fun e => e.2.d := by
    rw [hrest]
    simp [settled, Function.comp_def]
  have hgone : ∀ d, d ∈ (r.pending.entries.filter fun e => decide (e.2.peer = peer)).map
      (fun e => e.2.d) ↔ ∃ corr p, r.pending.get corr = some p ∧ p.peer = peer ∧ p.d = d := by
    intro d
    simp only [List.mem_map, List.mem_filter, decide_eq_true_eq, Prod.exists]
    constructor
    · rintro ⟨c, q, ⟨hm, hpeer⟩, rfl⟩
      exact ⟨c, q, (OrdMap.get_eq_some _ _ _).2 hm, hpeer, rfl⟩
    · rintro ⟨c, q, hq, hpeer, rfl⟩
      exact ⟨c, q, ⟨(OrdMap.get_eq_some _ _ _).1 hq, hpeer⟩, rfl⟩
  have hnext : r'.nextCorr = r.nextCorr := by rw [hrest]
  have hreq : r'.requests = r.requests := by rw [hrest]
  constructor
  · rw [hnext]; exact h.next
  · exact fun c q hq => h.ids c q ((hget c q).1 hq).1
  · rw [hreq]
    exact fun c q hq => h.known c q ((hget c q).1 hq).1
  · intro c q hq
    obtain ⟨hq, hpeer⟩ := (hget c q).1 hq
    obtain ⟨h1, h2⟩ := h.unsettled c q hq
    refine ⟨?_, h2⟩
    rw [hs, List.mem_append, not_or, hgone]
    refine ⟨h1, ?_⟩
    rintro ⟨c', q', hq', hpeer', hd⟩
    have := h.one hq' hq hd
    subst this
    rw [hq] at hq'
    cases hq'
    exact hpeer hpeer'
  · intro d hd
    rw [hs, List.mem_append, hgone] at hd
    rw [hreq]
    rcases hd with hd | ⟨c, q, hq, -, rfl⟩
    · exact h.made d hd
    · exact (List.getElem?_eq_some_iff.1 (h.known c q hq)).1
  · intro d hd hx
    rw [hreq] at hd
    rw [hs, List.mem_append, hgone]
    rcases h.all d hd hx with hset | ⟨c, q, hq, rfl⟩
    · exact .inl (.inl hset)
    · by_cases hpeer : q.peer = peer
      · exact .inl (.inr ⟨c, q, hq, hpeer, rfl⟩)
      · exact .inr ⟨c, q, (hget c q).2 ⟨hq, hpeer⟩, rfl⟩
  · rw [hs, List.nodup_append]
    refine ⟨h.once, ?_, fun a ha b hb hab => ?_⟩
    · have hd : (r.pending.entries.map fun e => e.2.d).Nodup := by
        rw [List.Nodup, List.pairwise_map]
        have hk := r.pending.nodup
        rw [List.Nodup, List.pairwise_map] at hk
        refine hk.imp_of_mem fun {a b} ha hb hne heq => hne ?_
        exact h.one ((OrdMap.get_eq_some _ a.1 a.2).2 ha) ((OrdMap.get_eq_some _ b.1 b.2).2 hb) heq
      exact hd.sublist (List.filter_sublist.map _)
    · rw [hgone] at hb
      obtain ⟨c, q, hq, -, rfl⟩ := hb
      exact (h.unsettled c q hq).1 (hab ▸ ha)
  · intro d hx
    rw [hreq, hs, List.mem_append, not_or, hgone]
    obtain ⟨h1, h2⟩ := h.hand d hx
    refine ⟨h1, h2, ?_⟩
    rintro ⟨c, q, hq, -, rfl⟩
    exact (h.unsettled c q hq).2 hx.symm
  · intro d b hmem
    rw [hrest] at hmem ⊢
    rcases List.mem_append.1 hmem with hmem | hmem
    · exact h.answered d b hmem
    · simp [answer] at hmem
  · rw [hentries]
    exact h.sorted.sublist (List.filter_sublist.map _)
  · intro c q hq
    have ht := h.timed c q ((hget c q).1 hq).1
    rw [hrest]
    exact ht

end Books

/-! ### The windows -/

/-- What a peer has unanswered over the relay. -/
def total (peer : Bytes) (m : OrdMap Nat Pending) : Nat :=
  m.sum fun e => if e.2.peer = peer then e.2.relayedBytes else 0

/-- How many requests that is. -/
def sent (peer : Bytes) (m : OrdMap Nat Pending) : Nat :=
  m.sum fun e => if e.2.peer = peer ∧ 0 < e.2.relayedBytes then 1 else 0

/-- The peer's requests that were held and then put on links, in that order. -/
def putsOf (peer : Bytes) (r : ReqRes) : List Nat :=
  r.puts.filter fun d => decide (r.requests[d]?.map Prod.snd = some peer)

/-- The peer's requests that wait still, oldest first. -/
def waitingOf (peer : Bytes) (r : ReqRes) : List Nat :=
  match r.relayed.get peer with
  | none => []
  | some q => q.waiting.filterMap fun corr => (r.pending.get corr).map Pending.d

/-- A request waits in its peer's window exactly while it holds its frame. -/
structure Windows (r : ReqRes) : Prop where
  nodup : ∀ peer q, r.relayed.get peer = some q → q.waiting.Nodup
  waits : ∀ peer q corr p, r.relayed.get peer = some q → corr ∈ q.waiting →
    r.pending.get corr = some p → p.held ≠ none ∧ p.peer = peer
  holds : ∀ corr p, r.pending.get corr = some p → p.held ≠ none →
    ∃ q, r.relayed.get p.peer = some q ∧ corr ∈ q.waiting

structure Metered (r : ReqRes) : Prop where
  bytes : ∀ peer q, r.relayed.get peer = some q → q.bytes = (total peer r.pending : Int)
  bound : ∀ peer, total peer r.pending ≤ r.maxFrameBytes ∨ sent peer r.pending ≤ 1
  unsent : ∀ corr p, r.pending.get corr = some p → p.held ≠ none → p.relayedBytes = 0
  made : ∀ d ∈ r.puts, d < r.requests.length
  order : ∀ peer, (r.putsOf peer ++ r.waitingOf peer).Pairwise (· < ·)

/-- The whole invariant; the meters are right only in runs that keep to a condition, `m`. -/
structure Inv (m : Prop) (x : Option Nat) (r : ReqRes) : Prop where
  books : r.Books x
  windows : r.Windows
  metered : m → r.Metered

theorem sum_filter_le {κ α : Type} (es : List (κ × α)) (f : κ × α → Nat) (q : κ × α → Bool) :
    ((es.filter q).map f).sum ≤ (es.map f).sum :=
  (List.filter_sublist.map f).sum_le_sum fun _ _ => Nat.zero_le _

theorem sum_filter_eq {κ α : Type} (es : List (κ × α)) (f : κ × α → Nat) (q : κ × α → Bool)
    (h : ∀ e ∈ es, q e = false → f e = 0) : ((es.filter q).map f).sum = (es.map f).sum := by
  induction es with
  | nil => rfl
  | cons e es ih =>
    have ih := ih fun e' he' => h e' (by simp [he'])
    cases hq : q e with
    | true => simp [hq, ih]
    | false => simp [hq, ih, h e (by simp) hq]

section Windows

variable {m : Prop} {x : Option Nat} {r : ReqRes}

theorem Windows.peerDown (h : r.Windows) (peer : Bytes) : (r.peerDown peer).Windows := by
  have hget := peerDown_get peer r
  have hrel : (r.peerDown peer).relayed = r.relayed.delete peer := by rw [(peerDown_spec peer r).2]
  constructor
  · intro peer' q hq
    rw [hrel, OrdMap.get_delete] at hq
    split at hq
    · cases hq
    · exact h.nodup peer' q hq
  · intro peer' q corr p hq hc hp
    rw [hrel, OrdMap.get_delete] at hq
    split at hq
    · cases hq
    · exact h.waits peer' q corr p hq hc ((hget corr p).1 hp).1
  · intro corr p hp hheld
    obtain ⟨hp, hne⟩ := (hget corr p).1 hp
    obtain ⟨q, hq, hc⟩ := h.holds corr p hp hheld
    exact ⟨q, by rw [hrel, OrdMap.get_delete, if_neg hne]; exact hq, hc⟩

theorem Metered.peerDown (h : r.Metered) (hw : r.Windows) (peer : Bytes) :
    (r.peerDown peer).Metered := by
  have hget := peerDown_get peer r
  obtain ⟨hentries, hrest⟩ := peerDown_spec peer r
  generalize hr' : r.peerDown peer = r' at *
  have hrel : r'.relayed = r.relayed.delete peer := by rw [hrest]
  have hputs : ∀ peer', r'.putsOf peer' = r.putsOf peer' := by
    intro peer'
    rw [hrest]
    rfl
  constructor
  · intro peer' q hq
    rw [hrel, OrdMap.get_delete] at hq
    split at hq
    · cases hq
    · rename_i hne
      rw [h.bytes peer' q hq]
      congr 1
      simp only [total, OrdMap.sum, hentries]
      refine (sum_filter_eq _ _ _ fun e _ hf => ?_).symm
      simp only [ne_eq, decide_not, Bool.not_eq_eq_eq_not, Bool.not_false,
        decide_eq_true_eq] at hf
      rw [hf, if_neg (Ne.symm hne)]
  · intro peer'
    have hmax : r'.maxFrameBytes = r.maxFrameBytes := by rw [hrest]
    rw [hmax]
    rcases h.bound peer' with hle | hle
    · left
      refine le_trans ?_ hle
      simp only [total, OrdMap.sum, hentries]
      exact sum_filter_le _ _ _
    · right
      refine le_trans ?_ hle
      simp only [sent, OrdMap.sum, hentries]
      exact sum_filter_le _ _ _
  · exact fun c p hp => h.unsent c p ((hget c p).1 hp).1
  · have hp : r'.puts = r.puts := by rw [hrest]
    have hq : r'.requests = r.requests := by rw [hrest]
    rw [hp, hq]
    exact h.made
  · intro peer'
    rw [hputs]
    refine (h.order peer').sublist (List.Sublist.append_left ?_ _)
    simp only [waitingOf, hrel, OrdMap.get_delete]
    by_cases hpp : peer' = peer
    · simp [hpp]
    · simp only [if_neg hpp]
      cases hq : r.relayed.get peer' with
      | none => simp
      | some q =>
        have hkeep : ∀ c ∈ q.waiting, r'.pending.get c = r.pending.get c := by
          intro c hc
          apply Option.ext
          intro p
          rw [hget c p]
          exact ⟨fun hp => hp.1, fun hp => ⟨hp, fun heq =>
            hpp ((hw.waits peer' q c p hq hc hp).2.symm.trans heq)⟩⟩
        simp only
        rw [List.filterMap_congr fun c hc => congrArg _ (hkeep c hc)]

theorem Inv.upset (h : r.Inv m x) (u : Upset) : (r.upset u).Inv m x := by
  cases u with
  | route peer route =>
    exact ⟨h.books.congr rfl rfl rfl rfl rfl rfl le_rfl,
      ⟨h.windows.nodup, h.windows.waits, h.windows.holds⟩, fun hm =>
        ⟨(h.metered hm).bytes, (h.metered hm).bound, (h.metered hm).unsent, (h.metered hm).made,
          (h.metered hm).order⟩⟩
  | down peer =>
    exact ⟨h.books.peerDown peer, h.windows.peerDown peer, fun hm =>
      (h.metered hm).peerDown h.windows peer⟩

/-- Where the pump of a window stands: what is left of it is in the map, or its peer went
down and nothing is left. -/
def At (peer : Bytes) (waiting : List Nat) (bytes : Int) (r : ReqRes) : Prop :=
  r.relayed.get peer = some ⟨bytes, waiting⟩ ∨
    r.relayed.get peer = none ∧ ∀ c ∈ waiting, r.pending.get c = none

theorem At.upset {peer : Bytes} {waiting : List Nat} {bytes : Int} (h : At peer waiting bytes r)
    (hw : r.Windows) (u : Upset) : At peer waiting bytes (r.upset u) := by
  cases u with
  | route peer' route => exact h
  | down peer' =>
    have hget := peerDown_get peer' r
    have hrel : (r.peerDown peer').relayed = r.relayed.delete peer' := by
      rw [(peerDown_spec peer' r).2]
    have hgone : ∀ c, r.pending.get c = none → (r.peerDown peer').pending.get c = none := by
      intro c hc
      cases hp : (r.peerDown peer').pending.get c with
      | none => rfl
      | some p =>
        rw [((hget c p).1 hp).1] at hc
        cases hc
    simp only [ReqRes.upset, At, hrel, OrdMap.get_delete]
    by_cases hpp : peer = peer'
    · subst hpp
      refine .inr ⟨by simp, fun c hc => ?_⟩
      rcases h with h | h
      · cases hp : (r.peerDown peer).pending.get c with
        | none => rfl
        | some p =>
          obtain ⟨hp, hne⟩ := (hget c p).1 hp
          exact absurd (hw.waits peer _ c p h hc hp).2 hne
      · exact hgone c (h.2 c hc)
    · simp only [if_neg hpp]
      rcases h with h | h
      · exact .inl h
      · exact .inr ⟨h.1, fun c hc => hgone c (h.2 c hc)⟩

theorem Inv.put {peer : Bytes} {waiting : List Nat} {bytes : Int} (fate : List Upset)
    (h : r.Inv m x) (ha : At peer waiting bytes r) :
    (r.put fate).Inv m x ∧ At peer waiting bytes (r.put fate) := by
  unfold ReqRes.put
  induction fate generalizing r with
  | nil => exact ⟨h, ha⟩
  | cons u fate ih => exact ih (h.upset u) (ha.upset h.windows u)

/-- A request that ended while it waited is passed over. -/
theorem Inv.pass {peer : Bytes} {corr : Nat} {waiting : List Nat} {bytes : Int} (h : r.Inv m x)
    (ha : At peer (corr :: waiting) bytes r) (hp : r.pending.get corr = none) :
    (r.setWindow peer ⟨bytes, waiting⟩).Inv m x ∧
      At peer waiting bytes (r.setWindow peer ⟨bytes, waiting⟩) := by
  rcases ha with ha | ⟨ha, hall⟩
  · have heq : r.setWindow peer ⟨bytes, waiting⟩ =
        { r with relayed := r.relayed.set peer ⟨bytes, waiting⟩ } := by simp [setWindow, ha]
    rw [heq]
    refine ⟨⟨h.books.congr rfl rfl rfl rfl rfl rfl le_rfl, ⟨?_, ?_, ?_⟩, fun hm => ?_⟩,
      .inl (OrdMap.get_set_self _ _ _)⟩
    · intro peer' q hq
      simp only [OrdMap.get_set] at hq
      split at hq
      · cases hq
        exact (List.nodup_cons.1 (h.windows.nodup peer _ ha)).2
      · exact h.windows.nodup peer' q hq
    · intro peer' q c p hq hc hp'
      simp only [OrdMap.get_set] at hq
      split at hq
      · rename_i hpp
        cases hq
        subst hpp
        exact h.windows.waits _ _ c p ha (by simp [hc]) hp'
      · exact h.windows.waits peer' q c p hq hc hp'
    · intro c p hp' hheld
      obtain ⟨q, hq, hc⟩ := h.windows.holds c p hp' hheld
      simp only [OrdMap.get_set]
      split
      · rename_i hpp
        rw [hpp, ha] at hq
        cases hq
        rcases List.mem_cons.1 hc with rfl | hc
        · rw [hp] at hp'
          cases hp'
        · exact ⟨_, rfl, hc⟩
      · exact ⟨q, hq, hc⟩
    · have hme := h.metered hm
      refine ⟨fun peer' q hq => ?_, hme.bound, hme.unsent, hme.made, fun peer' => ?_⟩
      · simp only [OrdMap.get_set] at hq
        split at hq
        · rename_i hpp
          cases hq
          subst hpp
          exact hme.bytes _ ⟨bytes, corr :: waiting⟩ ha
        · exact hme.bytes peer' q hq
      · have hord := hme.order peer'
        simp only [putsOf, waitingOf, OrdMap.get_set] at hord ⊢
        by_cases hpp : peer' = peer
        · subst hpp
          simpa [ha, hp] using hord
        · rw [if_neg hpp]
          exact hord
  · have heq : r.setWindow peer ⟨bytes, waiting⟩ = r := by simp [setWindow, ha]
    rw [heq]
    exact ⟨h, .inr ⟨ha, fun c hc => hall c (by simp [hc])⟩⟩

/-! ### The pump -/

theorem total_set {r : ReqRes} {corr : Nat} {p : Pending} (p' : Pending) (peer : Bytes)
    (hp : r.pending.get corr = some p) (hpeer : p'.peer = p.peer) :
    total peer (r.pending.set corr p') + (if p.peer = peer then p.relayedBytes else 0) =
      total peer r.pending + (if p.peer = peer then p'.relayedBytes else 0) := by
  have h1 := r.pending.sum_set (fun e => if e.2.peer = peer then e.2.relayedBytes else 0) corr p'
  have h2 := r.pending.sum_delete (fun e => if e.2.peer = peer then e.2.relayedBytes else 0) corr p hp
  simp only [total, h1, h2, hpeer]
  omega

theorem sent_set {r : ReqRes} {corr : Nat} {p : Pending} (p' : Pending) (peer : Bytes)
    (hp : r.pending.get corr = some p) (hpeer : p'.peer = p.peer) :
    sent peer (r.pending.set corr p') + (if p.peer = peer ∧ 0 < p.relayedBytes then 1 else 0) =
      sent peer r.pending + (if p.peer = peer ∧ 0 < p'.relayedBytes then 1 else 0) := by
  have h1 := r.pending.sum_set (fun e => if e.2.peer = peer ∧ 0 < e.2.relayedBytes then 1 else 0)
    corr p'
  have h2 := r.pending.sum_delete
    (fun e => if e.2.peer = peer ∧ 0 < e.2.relayedBytes then 1 else 0) corr p hp
  simp only [sent, h1, h2, hpeer]
  omega

theorem sent_le_total (peer : Bytes) (pending : OrdMap Nat Pending) :
    sent peer pending ≤ total peer pending := by
  refine List.sum_le_sum fun e _ => ?_
  by_cases h : e.2.peer = peer <;> by_cases hpos : 0 < e.2.relayedBytes <;> simp [h, hpos] <;> omega

theorem Metered.send {peer frame : Bytes} {corr : Nat} {waiting : List Nat} {bytes : Int}
    {p : Pending} (direct : Bool) (h : r.Metered) (hb : r.Books x)
    (ha : r.relayed.get peer = some ⟨bytes, corr :: waiting⟩)
    (hp : r.pending.get corr = some p) (hheld : p.held = some frame) (hpeer : p.peer = peer)
    (hnew : corr ∉ waiting)
    (hroom : direct = false → 0 < bytes → bytes + frame.length ≤ r.maxFrameBytes) :
    (unhold corr p direct frame { r with
      relayed := r.relayed.set peer
        ⟨if direct then bytes else bytes + frame.length, waiting⟩ }).Metered := by
  have hzero : p.relayedBytes = 0 := h.unsent corr p hp (by simp [hheld])
  have hbytes : bytes = (total peer r.pending : Int) := h.bytes peer _ ha
  -- The request joins what its peer has unanswered, unless it goes out direct.
  have htotal : ∀ peer', total peer' (r.pending.set corr
      { p with held := none, relayedBytes := if direct then p.relayedBytes else frame.length }) =
      total peer' r.pending + if peer' = peer ∧ direct = false then frame.length else 0 := by
    intro peer'
    have := total_set { p with
      held := none, relayedBytes := if direct then p.relayedBytes else frame.length } peer' hp rfl
    rw [hzero, hpeer] at this
    cases direct <;> by_cases hpp : peer = peer' <;> simp_all [eq_comm]
  have hsent : ∀ peer', sent peer' (r.pending.set corr
      { p with held := none, relayedBytes := if direct then p.relayedBytes else frame.length }) ≤
      sent peer' r.pending + if peer' = peer ∧ direct = false then 1 else 0 := by
    intro peer'
    have := sent_set { p with
      held := none, relayedBytes := if direct then p.relayedBytes else frame.length } peer' hp rfl
    rw [hzero, hpeer] at this
    cases direct <;> by_cases hpp : peer = peer' <;> simp_all [eq_comm]
    split at this <;> omega
  constructor
  · intro peer' q hq
    simp only [unhold, OrdMap.get_set] at hq ⊢
    rw [htotal]
    split at hq
    · rename_i hpp
      cases hq
      subst hpp
      cases direct <;> simp [hbytes]
    · rename_i hpp
      rw [h.bytes peer' q hq]
      simp [hpp]
  · intro peer'
    simp only [unhold]
    rw [htotal]
    have hs := hsent peer'
    by_cases hpp : peer' = peer ∧ direct = false
    · obtain ⟨rfl, hd⟩ := hpp
      simp only [hd, and_self, if_true] at hs ⊢
      by_cases hpos : 0 < bytes
      · left
        have := hroom hd hpos
        omega
      · right
        have := sent_le_total peer' r.pending
        omega
    · rw [if_neg hpp] at hs ⊢
      exact (h.bound peer').imp id fun h1 => by omega
  · intro c p' hp' hheld'
    simp only [unhold, OrdMap.get_set] at hp'
    split at hp'
    · cases hp'
      simp at hheld'
    · exact h.unsent c p' hp' hheld'
  · intro d hd
    rcases List.mem_append.1 hd with hd | hd
    · exact h.made d hd
    · rw [List.mem_singleton.1 hd]
      exact (List.getElem?_eq_some_iff.1 (hb.known corr p hp)).1
  · intro peer'
    have hord := h.order peer'
    have hd : ∀ c, ((r.pending.set corr { p with
        held := none, relayedBytes := if direct then p.relayedBytes else frame.length }).get c).map
        Pending.d = (r.pending.get c).map Pending.d := by
      intro c
      rw [OrdMap.get_set]
      split
      · rename_i hc
        rw [hc, hp]
        rfl
      · rfl
    have hmade : (r.requests[p.d]?).map Prod.snd = some peer := by
      rw [hb.known corr p hp, ← hpeer]
      rfl
    have hputs : (r.puts ++ [p.d]).filter
        (fun d => decide (r.requests[d]?.map Prod.snd = some peer')) =
        r.putsOf peer' ++ if peer = peer' then [p.d] else [] := by
      simp only [putsOf, List.filter_append, List.filter_singleton, hmade]
      by_cases hpp : peer = peer' <;> simp [hpp]
    refine Eq.mpr (congrArg (fun l => List.Pairwise (· < ·) (l ++ _)) hputs) ?_
    simp only [waitingOf, unhold, OrdMap.get_set (m := r.relayed)] at hord ⊢
    by_cases hpp : peer' = peer
    · subst hpp
      simpa [ha, hp, hd] using hord
    · have hpp' : ¬ peer = peer' := fun he => hpp he.symm
      simpa [hpp, hpp', hd] using hord

/-- The request a window has room for leaves it. -/
theorem Inv.send {peer frame : Bytes} {corr : Nat} {waiting : List Nat} {bytes : Int} {p : Pending}
    (direct : Bool) (h : r.Inv m x) (ha : r.relayed.get peer = some ⟨bytes, corr :: waiting⟩)
    (hp : r.pending.get corr = some p) (hheld : p.held = some frame)
    (hroom : direct = false → 0 < bytes → bytes + frame.length ≤ r.maxFrameBytes) :
    (unhold corr p direct frame
        (r.setWindow peer ⟨if direct then bytes else bytes + frame.length, waiting⟩)).Inv m x ∧
      At peer waiting (if direct then bytes else bytes + frame.length)
        (unhold corr p direct frame
          (r.setWindow peer ⟨if direct then bytes else bytes + frame.length, waiting⟩)) := by
  have hset : ∀ q, r.setWindow peer q = { r with relayed := r.relayed.set peer q } := by
    intro q
    simp [setWindow, ha]
  have hpeer : p.peer = peer := (h.windows.waits peer _ corr p ha (by simp) hp).2
  have hnd := List.nodup_cons.1 (h.windows.nodup peer _ ha)
  rw [hset]
  have hbooks := h.books.unhold direct frame hp
  refine ⟨⟨hbooks.congr rfl rfl rfl rfl rfl rfl le_rfl, ⟨?_, ?_, ?_⟩, fun hm => ?_⟩,
    .inl (OrdMap.get_set_self _ _ _)⟩
  · intro peer' q hq
    simp only [unhold, OrdMap.get_set] at hq
    split at hq
    · cases hq
      exact hnd.2
    · exact h.windows.nodup peer' q hq
  · intro peer' q c p' hq hc hp'
    simp only [unhold, OrdMap.get_set] at hq hp'
    by_cases hcc : c = corr
    · subst hcc
      split at hq
      · cases hq
        exact absurd hc hnd.1
      · rename_i hpp
        exact absurd ((h.windows.waits peer' q c p hq hc hp).2.symm.trans hpeer) hpp
    · rw [if_neg hcc] at hp'
      split at hq
      · rename_i hpp
        cases hq
        subst hpp
        exact h.windows.waits _ _ c p' ha (by simp [hc]) hp'
      · exact h.windows.waits peer' q c p' hq hc hp'
  · intro c p' hp' hheld'
    simp only [unhold, OrdMap.get_set] at hp' ⊢
    split at hp'
    · cases hp'
      simp at hheld'
    · rename_i hcc
      obtain ⟨q, hq, hc⟩ := h.windows.holds c p' hp' hheld'
      split
      · rename_i hpp
        rw [hpp, ha] at hq
        cases hq
        exact ⟨_, rfl, (List.mem_cons.1 hc).resolve_left hcc⟩
      · exact ⟨q, hq, hc⟩
  · exact (h.metered hm).send direct h.books ha hp hheld hpeer hnd.1 hroom

/-- The end of the pump. -/
theorem Inv.closeWindow {peer : Bytes} {bytes : Int} (direct : Bool) (h : r.Inv m x)
    (ha : At peer [] bytes r) : (r.closeWindow peer direct ⟨bytes, []⟩).Inv m x := by
  unfold ReqRes.closeWindow
  split
  · have hget : ∀ peer' q, (r.relayed.delete peer).get peer' = some q →
        peer' ≠ peer ∧ r.relayed.get peer' = some q := by
      intro peer' q hq
      rw [OrdMap.get_delete] at hq
      split at hq
      · cases hq
      · exact ⟨by assumption, hq⟩
    refine ⟨h.books.congr rfl rfl rfl rfl rfl rfl le_rfl, ⟨?_, ?_, ?_⟩, fun hm => ?_⟩
    · exact fun peer' q hq => h.windows.nodup peer' q (hget peer' q hq).2
    · exact fun peer' q c p hq => h.windows.waits peer' q c p (hget peer' q hq).2
    · intro c p hp hheld
      obtain ⟨q, hq, hc⟩ := h.windows.holds c p hp hheld
      refine ⟨q, ?_, hc⟩
      rw [OrdMap.get_delete, if_neg]
      · exact hq
      · intro hpp
        rw [hpp] at hq
        rcases ha with ha | ⟨ha, -⟩ <;> rw [ha] at hq <;> cases hq
        simp at hc
    · have hme := h.metered hm
      refine ⟨fun peer' q hq => hme.bytes peer' q (hget peer' q hq).2, hme.bound, hme.unsent,
        hme.made, fun peer' => ?_⟩
      have hord := hme.order peer'
      simp only [putsOf, waitingOf, OrdMap.get_delete] at hord ⊢
      by_cases hpp : peer' = peer
      · subst hpp
        rcases ha with ha | ⟨ha, -⟩ <;> simpa [ha] using hord
      · rw [if_neg hpp]
        exact hord
  · exact h

/-- The pump never meets a request in its window that holds no frame, so it never throws. -/
theorem Inv.pumpLoop {peer : Bytes} {bytes : Int} (direct : Bool) (waiting : List Nat)
    (fates : List (List Upset)) (h : r.Inv m x) (ha : At peer waiting bytes r) :
    (pumpLoop peer direct waiting bytes fates r).1 = true ∧
      (pumpLoop peer direct waiting bytes fates r).2.Inv m x := by
  induction waiting generalizing bytes fates r with
  | nil => exact ⟨rfl, h.closeWindow direct ha⟩
  | cons corr waiting ih =>
    unfold ReqRes.pumpLoop
    cases hp : r.pending.get corr with
    | none =>
      obtain ⟨h', ha'⟩ := h.pass ha hp
      exact ih fates h' ha'
    | some p =>
      rcases ha with ha | ⟨-, hall⟩
      · have hw := (h.windows.waits peer _ corr p ha (by simp) hp).1
        simp only
        cases hheld : p.held with
        | none => exact absurd hheld hw
        | some frame =>
          simp only
          split
          · exact ⟨rfl, h⟩
          · rename_i hroom
            simp only [Bool.and_eq_true, Bool.not_eq_true', decide_eq_true_eq, not_and,
              not_lt] at hroom
            obtain ⟨h', ha'⟩ := h.send direct ha hp hheld fun hd hb => hroom ⟨hd, hb⟩
            obtain ⟨h'', ha''⟩ := h'.put (fates.headD []) ha'
            exact ih fates.tail h'' ha''
      · rw [hall corr (by simp)] at hp
        cases hp

theorem Inv.pumpRelayed (peer : Bytes) (fates : List (List Upset)) (h : r.Inv m x) :
    (r.pumpRelayed peer fates).1 = true ∧ (r.pumpRelayed peer fates).2.Inv m x := by
  unfold ReqRes.pumpRelayed
  cases hq : r.relayed.get peer with
  | none => exact ⟨rfl, h⟩
  | some q => exact h.pumpLoop _ q.waiting fates (.inl hq)

/-! ### The end of a request -/

/-- A request is taken out of the map, and what it weighed off its peer's window. -/
theorem Inv.take {r' : ReqRes} {corr : Nat} {p : Pending} (h : r.Inv m none)
    (hp : r.pending.get corr = some p) (hpend : r'.pending = r.pending.delete corr)
    (hrel : ∀ peer, r'.relayed.get peer = (r.relayed.get peer).map fun q =>
      ⟨q.bytes - if p.peer = peer then (p.relayedBytes : Int) else 0, q.waiting⟩)
    (hn : r'.nextCorr = r.nextCorr) (hq : r'.requests = r.requests)
    (hres : r'.resolved = r.resolved) (hg : r'.got = r.got)
    (ht : r'.requestTimeoutMs = r.requestTimeoutMs) (hnow : r'.now = r.now)
    (hputs : r'.puts = r.puts) (hmax : r'.maxFrameBytes = r.maxFrameBytes) :
    r'.Inv m (some p.d) := by
  have hget : ∀ c q, r'.pending.get c = some q → c ≠ corr ∧ r.pending.get c = some q := by
    intro c q hq
    rw [hpend, OrdMap.get_delete] at hq
    split at hq
    · cases hq
    · exact ⟨by assumption, hq⟩
  have hwin : ∀ peer q, r'.relayed.get peer = some q → ∃ q', r.relayed.get peer = some q' ∧
      q.bytes = q'.bytes - (if p.peer = peer then (p.relayedBytes : Int) else 0) ∧
      q.waiting = q'.waiting := by
    intro peer q hq
    rw [hrel, Option.map_eq_some_iff] at hq
    obtain ⟨q', hq', rfl⟩ := hq
    exact ⟨q', hq', rfl, rfl⟩
  have htotal : ∀ peer, total peer r.pending =
      (if p.peer = peer then p.relayedBytes else 0) + total peer r'.pending := by
    intro peer
    rw [hpend]
    exact r.pending.sum_delete _ corr p hp
  refine ⟨(h.books.take hp).congr hpend hn hq hres hg ht hnow.ge, ⟨?_, ?_, ?_⟩, fun hm => ?_⟩
  · intro peer q hq
    obtain ⟨q', hq', -, hw⟩ := hwin peer q hq
    rw [hw]
    exact h.windows.nodup peer q' hq'
  · intro peer q c p' hq hc hp'
    obtain ⟨q', hq', -, hw⟩ := hwin peer q hq
    exact h.windows.waits peer q' c p' hq' (hw ▸ hc) (hget c p' hp').2
  · intro c p' hp' hheld
    obtain ⟨q', hq', hc⟩ := h.windows.holds c p' (hget c p' hp').2 hheld
    refine ⟨⟨q'.bytes - if p.peer = p'.peer then (p.relayedBytes : Int) else 0, q'.waiting⟩, ?_, hc⟩
    rw [hrel, hq']
    rfl
  · have hme := h.metered hm
    constructor
    · intro peer q hq
      obtain ⟨q', hq', hb, -⟩ := hwin peer q hq
      have h1 := hme.bytes peer q' hq'
      have h2 := htotal peer
      rw [hb]
      split at h2 <;> simp_all
    · intro peer
      rw [hmax]
      refine (hme.bound peer).imp (fun h1 => ?_) fun h1 => ?_
      · have := htotal peer
        omega
      · rw [hpend]
        exact le_trans (OrdMap.sum_delete_le _ _ _) h1
    · exact fun c p' hp' => hme.unsent c p' (hget c p' hp').2
    · rw [hputs, hq]
      exact hme.made
    · intro peer
      have hp : r'.putsOf peer = r.putsOf peer := by simp only [putsOf, hputs, hq]
      rw [hp]
      refine (hme.order peer).sublist (List.Sublist.append_left ?_ _)
      simp only [waitingOf, hrel]
      cases r.relayed.get peer with
      | none => simp
      | some q =>
        simp only [Option.map_some]
        generalize q.waiting = waiting
        induction waiting with
        | nil => simp
        | cons c waiting ih =>
          simp only [List.filterMap_cons]
          rw [hpend, OrdMap.get_delete]
          by_cases hc : c = corr
          · rw [if_pos hc]
            cases r.pending.get c with
            | none => exact hpend ▸ ih
            | some q' => exact (hpend ▸ ih).cons _
          · rw [if_neg hc]
            cases r.pending.get c with
            | none => exact hpend ▸ ih
            | some q' => exact (hpend ▸ ih).cons_cons _

theorem Inv.resolve {d : Nat} (h : r.Inv m (some d)) {payload : Option Bytes}
    (ha : ∀ b, payload = some b → ∃ corr peer frame, r.requests[d]? = some (corr, peer) ∧
      (peer, frame) ∈ r.got ∧ Response frame corr b) :
    Inv m none { r with resolved := r.resolved ++ [(d, answer payload)] } :=
  ⟨h.books.resolve ha, ⟨h.windows.nodup, h.windows.waits, h.windows.holds⟩, fun hm =>
    ⟨(h.metered hm).bytes, (h.metered hm).bound, (h.metered hm).unsent, (h.metered hm).made,
      (h.metered hm).order⟩⟩

end Windows

/-! ### What a put leaves alone -/

/-- One state follows another in which only requests to peers in `D` were dropped. -/
structure Kept (D : Bytes → Prop) (r r' : ReqRes) : Prop where
  requests : r'.requests = r.requests
  got : r'.got = r.got
  now : r'.now = r.now
  failed : ∀ e ∈ r'.resolved, e ∈ r.resolved ∨ e.2 = answer none
  kept : ∀ c p, r.pending.get c = some p → ¬ D p.peer →
    ∃ p', r'.pending.get c = some p' ∧ p'.d = p.d ∧ p'.peer = p.peer
  old : ∀ c p', r'.pending.get c = some p' →
    ∃ p, r.pending.get c = some p ∧ p.d = p'.d ∧ p.peer = p'.peer ∧ p.due = p'.due

section Kept

variable {D : Bytes → Prop} {r r₁ r₂ r₃ : ReqRes}

theorem Kept.of_pending (hp : r₂.pending = r₁.pending) (hq : r₂.requests = r₁.requests)
    (hg : r₂.got = r₁.got) (hn : r₂.now = r₁.now) (hr : r₂.resolved = r₁.resolved) :
    Kept D r₁ r₂ := by
  refine ⟨hq, hg, hn, fun e he => .inl (hr ▸ he), fun c p h _ => ⟨p, hp ▸ h, rfl, rfl⟩, fun c p h =>
    ⟨p, hp ▸ h, rfl, rfl, rfl⟩⟩

theorem Kept.trans (h : Kept D r₁ r₂) (h' : Kept D r₂ r₃) : Kept D r₁ r₃ := by
  refine ⟨h'.requests.trans h.requests, h'.got.trans h.got, h'.now.trans h.now, ?_, ?_, ?_⟩
  · exact fun e he => (h'.failed e he).elim (h.failed e) .inr
  · intro c p hp hD
    obtain ⟨p', hp', hd, hpeer⟩ := h.kept c p hp hD
    obtain ⟨p'', hp'', hd', hpeer'⟩ := h'.kept c p' hp' (hpeer ▸ hD)
    exact ⟨p'', hp'', hd'.trans hd, hpeer'.trans hpeer⟩
  · intro c p'' hp''
    obtain ⟨p', hp', h1, h2, h3⟩ := h'.old c p'' hp''
    obtain ⟨p, hp, h4, h5, h6⟩ := h.old c p' hp'
    exact ⟨p, hp, h4.trans h1, h5.trans h2, h6.trans h3⟩

theorem Kept.none (h : Kept D r₁ r₂) {c : Nat} (hc : r₁.pending.get c = none) :
    r₂.pending.get c = none := by
  cases hp : r₂.pending.get c with
  | none => rfl
  | some p =>
    obtain ⟨p', hp', -⟩ := h.old c p hp
    rw [hc] at hp'
    cases hp'

theorem Kept.peerDown {peer : Bytes} (hD : D peer) : Kept D r (r.peerDown peer) := by
  have hget := peerDown_get peer r
  have hrest := (peerDown_spec peer r).2
  refine ⟨by rw [hrest], by rw [hrest], by rw [hrest], ?_, ?_, ?_⟩
  · intro e he
    rw [hrest] at he
    rcases List.mem_append.1 he with he | he
    · exact .inl he
    · obtain ⟨e', -, rfl⟩ := List.mem_map.1 he
      exact .inr rfl
  · exact fun c p hp hn => ⟨p, (hget c p).2 ⟨hp, fun he => hn (he ▸ hD)⟩, rfl, rfl⟩
  · exact fun c p hp => ⟨p, ((hget c p).1 hp).1, rfl, rfl, rfl⟩

theorem Kept.put {fate : List Upset} (hD : ∀ peer, Upset.down peer ∈ fate → D peer) :
    Kept D r (r.put fate) := by
  unfold ReqRes.put
  induction fate generalizing r with
  | nil => exact .of_pending rfl rfl rfl rfl rfl
  | cons u fate ih =>
    have hstep : Kept D r (r.upset u) := by
      cases u with
      | route peer route => exact .of_pending rfl rfl rfl rfl rfl
      | down peer => exact Kept.peerDown (hD peer (by simp))
    exact hstep.trans (ih fun peer hp => hD peer (by simp [hp]))

theorem Kept.setWindow (peer : Bytes) (q : Window) : Kept D r (r.setWindow peer q) := by
  unfold ReqRes.setWindow
  split
  · exact .of_pending rfl rfl rfl rfl rfl
  · exact .of_pending rfl rfl rfl rfl rfl

theorem Kept.unhold {corr : Nat} {p : Pending} (direct : Bool) (frame : Bytes)
    (hp : r.pending.get corr = some p) : Kept D r (unhold corr p direct frame r) := by
  refine ⟨rfl, rfl, rfl, fun e he => .inl he, ?_, ?_⟩
  · intro c q hq _
    simp only [ReqRes.unhold, OrdMap.get_set]
    split
    · rename_i hc
      rw [hc, hp] at hq
      cases hq
      exact ⟨_, rfl, rfl, rfl⟩
    · exact ⟨q, hq, rfl, rfl⟩
  · intro c q hq
    simp only [ReqRes.unhold, OrdMap.get_set] at hq
    split at hq
    · rename_i hc
      cases hq
      exact ⟨p, hc ▸ hp, rfl, rfl, rfl⟩
    · exact ⟨q, hq, rfl, rfl, rfl⟩

theorem headD_mem {fates : List (List Upset)} {u : Upset} (h : u ∈ fates.headD []) :
    ∃ fate ∈ fates, u ∈ fate := by
  cases fates with
  | nil => simp at h
  | cons fate fates => exact ⟨fate, by simp, h⟩

theorem Kept.pumpLoop {peer : Bytes} {bytes : Int} (direct : Bool) (waiting : List Nat)
    {fates : List (List Upset)} (hD : ∀ peer, (∃ fate ∈ fates, Upset.down peer ∈ fate) → D peer) :
    Kept D r (pumpLoop peer direct waiting bytes fates r).2 := by
  induction waiting generalizing bytes fates r with
  | nil =>
    simp only [ReqRes.pumpLoop, closeWindow]
    split
    · exact .of_pending rfl rfl rfl rfl rfl
    · exact .of_pending rfl rfl rfl rfl rfl
  | cons corr waiting ih =>
    have hhead : ∀ peer, Upset.down peer ∈ fates.headD [] → D peer := fun peer h =>
      hD peer (headD_mem h)
    have htail : ∀ peer, (∃ fate ∈ fates.tail, Upset.down peer ∈ fate) → D peer := by
      rintro peer ⟨fate, hf, hu⟩
      exact hD peer ⟨fate, List.mem_of_mem_tail hf, hu⟩
    unfold ReqRes.pumpLoop
    cases hp : r.pending.get corr with
    | none => exact (Kept.setWindow peer _).trans (ih hD)
    | some p =>
      simp only
      cases p.held with
      | none =>
        simp only
        split
        · exact (Kept.setWindow peer _).trans ((Kept.put hhead).trans (ih htail))
        · split
          · exact .of_pending rfl rfl rfl rfl rfl
          · exact Kept.setWindow peer _
      | some frame =>
        simp only
        split
        · exact .of_pending rfl rfl rfl rfl rfl
        · have hset : ∀ q, (r.setWindow peer q).pending = r.pending := by
            intro q
            unfold ReqRes.setWindow
            split <;> rfl
          have hout : ∀ q, Kept D r (ReqRes.unhold corr p direct frame (r.setWindow peer q)) :=
            fun q => (Kept.setWindow peer q).trans (Kept.unhold direct frame (by rw [hset]; exact hp))
          exact (hout _).trans ((Kept.put hhead).trans (ih htail))

theorem Kept.pumpRelayed (peer : Bytes) (fates : List (List Upset))
    (hD : ∀ peer, (∃ fate ∈ fates, Upset.down peer ∈ fate) → D peer) :
    Kept D r (r.pumpRelayed peer fates).2 := by
  unfold ReqRes.pumpRelayed
  split
  · exact .of_pending rfl rfl rfl rfl rfl
  · exact Kept.pumpLoop _ _ hD

end Kept

/-- `finish` in full: it never throws, its request is gone, and the others stay. -/
theorem Inv.finish {m : Prop} {r : ReqRes} (corr : Nat) (payload : Option Bytes)
    (fates : List (List Upset)) (h : r.Inv m none)
    (ha : ∀ b p, payload = some b → r.pending.get corr = some p →
      ∃ frame, (p.peer, frame) ∈ r.got ∧ Response frame corr b) :
    (r.finish corr payload fates).1 = true ∧ (r.finish corr payload fates).2.Inv m none ∧
      (r.finish corr payload fates).2.pending.get corr = none ∧
      (payload = none → Kept (fun peer => ∃ fate ∈ fates, Upset.down peer ∈ fate)
        { r with pending := r.pending.delete corr } (r.finish corr payload fates).2) := by
  unfold ReqRes.finish
  cases hp : r.pending.get corr with
  | none =>
    refine ⟨rfl, h, hp, fun _ => ⟨rfl, rfl, rfl, fun e he => .inl he, ?_, ?_⟩⟩
    · intro c q hq _
      rw [OrdMap.get_delete] at hq
      split at hq
      · cases hq
      · exact ⟨q, hq, rfl, rfl⟩
    · intro c q hq
      refine ⟨q, ?_, rfl, rfl, rfl⟩
      rw [OrdMap.get_delete, if_neg]
      · exact hq
      · rintro rfl
        rw [hp] at hq
        cases hq
  | some p =>
    have hknown := h.books.known corr p hp
    have hgone : ({ r with pending := r.pending.delete corr } : ReqRes).pending.get corr = none := by
      simp [OrdMap.get_delete]
    -- What is left of `finish` once the request is off the books is to answer it.
    have hdone : ∀ r', Kept (fun peer => ∃ fate ∈ fates, Upset.down peer ∈ fate)
        { r with pending := r.pending.delete corr } r' → r'.Inv m (some p.d) →
        Inv m none { r' with resolved := r'.resolved ++ [(p.d, answer payload)] } ∧
        r'.pending.get corr = none ∧
        (payload = none → Kept (fun peer => ∃ fate ∈ fates, Upset.down peer ∈ fate)
          { r with pending := r.pending.delete corr }
          { r' with resolved := r'.resolved ++ [(p.d, answer payload)] }) := by
      intro r' hk hi
      refine ⟨hi.resolve fun b hb => ?_, hk.none hgone, fun hnone => ?_⟩
      · obtain ⟨frame, hf, hres⟩ := ha b p hb hp
        exact ⟨corr, p.peer, frame, by rw [hk.requests]; exact hknown, by rw [hk.got]; exact hf, hres⟩
      · refine ⟨hk.requests, hk.got, hk.now, fun e he => ?_, hk.kept, hk.old⟩
        rcases List.mem_append.1 he with he | he
        · exact hk.failed e he
        · rw [List.mem_singleton.1 he, hnone]
          exact .inr rfl
    simp only
    split
    · rename_i hzero
      refine ⟨rfl, hdone _ (.of_pending rfl rfl rfl rfl rfl) (h.take hp rfl ?_ rfl rfl rfl rfl rfl rfl rfl
        rfl)⟩
      intro peer
      simp [hzero]
    · cases hq : r.relayed.get p.peer with
      | none =>
        refine ⟨rfl, hdone _ (.of_pending rfl rfl rfl rfl rfl) (h.take hp rfl ?_ rfl rfl rfl rfl rfl rfl
          rfl rfl)⟩
        intro peer
        by_cases hpp : p.peer = peer
        · simp [← hpp, hq]
        · simp [hpp]
      | some q =>
        simp only [setWindow, hq]
        have htaken : Inv m (some p.d) { r with
            pending := r.pending.delete corr
            relayed := r.relayed.set p.peer ⟨q.bytes - p.relayedBytes, q.waiting⟩ } := by
          refine h.take hp rfl ?_ rfl rfl rfl rfl rfl rfl rfl rfl
          intro peer
          simp only [OrdMap.get_set]
          by_cases hpp : p.peer = peer
          · simp [← hpp, hq]
          · have hpp' : ¬ peer = p.peer := fun he => hpp he.symm
            simp [hpp, hpp']
        obtain ⟨h1, h2⟩ := htaken.pumpRelayed p.peer fates
        have hk := Kept.pumpRelayed (D := fun peer => ∃ fate ∈ fates, Upset.down peer ∈ fate)
          (r := { r with
            pending := r.pending.delete corr
            relayed := r.relayed.set p.peer ⟨q.bytes - p.relayedBytes, q.waiting⟩ })
          p.peer fates fun _ h => h
        generalize ReqRes.pumpRelayed p.peer fates _ = res at h1 h2 hk
        obtain ⟨ok, r'⟩ := res
        simp only at h1
        subst h1
        exact ⟨rfl, hdone r' ⟨hk.requests, hk.got, hk.now, hk.failed, hk.kept, hk.old⟩ h2⟩

/-! ### A request made -/

/-- The id of the next request is in use nowhere. -/
def Free (r : ReqRes) : Prop :=
  r.pending.get r.nextCorr = none ∧
    ∀ peer q, r.relayed.get peer = some q → r.nextCorr ∉ q.waiting

/-- Nothing of what a peer without a window has unanswered came over the relay. -/
def Anew (peer : Bytes) (r : ReqRes) : Prop :=
  r.route peer = .relayed → r.relayed.get peer = none → total peer r.pending = 0

section Request

variable {m : Prop} {r : ReqRes}

theorem nextId_range (corr : Nat) (h : 1 ≤ corr) : 1 ≤ nextId corr ∧ nextId corr < 2 ^ 32 := by
  unfold nextId
  split <;> omega

theorem enter_get (peer : Bytes) (held : Option Bytes) (r : ReqRes) (c : Nat) (p : Pending) :
    (r.enter peer held).pending.get c = some p ↔
      (c = r.nextCorr ∧ p = ⟨peer, r.requests.length,
        if 0 < r.requestTimeoutMs then some (r.now + r.requestTimeoutMs) else none, 0, held⟩) ∨
      (c ≠ r.nextCorr ∧ r.pending.get c = some p) := by
  simp only [enter, OrdMap.get_set]
  split
  · rename_i hc
    simp [hc, eq_comm]
  · rename_i hc
    simp [hc]

theorem Books.enter (h : r.Books none) (hfree : r.pending.get r.nextCorr = none) (peer : Bytes)
    (held : Option Bytes) : (r.enter peer held).Books none := by
  have hget := enter_get peer held r
  have hreq : (r.enter peer held).requests = r.requests ++ [(r.nextCorr, peer)] := rfl
  have hset : (r.enter peer held).settled = r.settled := rfl
  have hlt : ∀ c p, r.pending.get c = some p → p.d < r.requests.length := fun c p hp =>
    (List.getElem?_eq_some_iff.1 (h.known c p hp)).1
  have hkeep : ∀ (d : Nat) (v : Nat × Bytes), r.requests[d]? = some v → (r.requests ++ [(r.nextCorr, peer)])[d]? = some v := by
    intro d v hv
    rw [List.getElem?_append_left (List.getElem?_eq_some_iff.1 hv).1]
    exact hv
  constructor
  · exact nextId_range _ h.next.1
  · intro c p hp
    rcases (hget c p).1 hp with ⟨rfl, -⟩ | ⟨-, hp⟩
    · exact h.next
    · exact h.ids c p hp
  · intro c p hp
    rw [hreq]
    rcases (hget c p).1 hp with ⟨rfl, rfl⟩ | ⟨-, hp⟩
    · simp
    · exact hkeep _ _ (h.known c p hp)
  · intro c p hp
    rw [hset]
    refine ⟨?_, by simp⟩
    rcases (hget c p).1 hp with ⟨rfl, rfl⟩ | ⟨-, hp⟩
    · intro hmem
      exact absurd (h.made _ hmem) (lt_irrefl _)
    · exact (h.unsettled c p hp).1
  · intro d hd
    rw [hreq, List.length_append, List.length_singleton]
    have := h.made d hd
    omega
  · intro d hd _
    rw [hreq, List.length_append, List.length_singleton] at hd
    by_cases hlast : d = r.requests.length
    · exact .inr ⟨r.nextCorr, _, (hget _ _).2 (.inl ⟨rfl, rfl⟩), hlast.symm⟩
    · rcases h.all d (by omega) (by simp) with hs | ⟨c, p, hp, rfl⟩
      · exact .inl hs
      · refine .inr ⟨c, p, (hget c p).2 (.inr ⟨?_, hp⟩), rfl⟩
        rintro rfl
        rw [hfree] at hp
        cases hp
  · exact h.once
  · simp
  · intro d payload hmem
    obtain ⟨corr, peer', frame, hr, hrest⟩ := h.answered d payload hmem
    exact ⟨corr, peer', frame, by rw [hreq]; exact hkeep _ _ hr, hrest⟩
  · have hent : (r.enter peer held).pending.entries = r.pending.entries ++ [_] :=
      r.pending.entries_set_new r.nextCorr _ hfree
    rw [hent, List.map_append, List.pairwise_append]
    refine ⟨h.sorted, by simp, ?_⟩
    intro due hdue due' hdue'
    simp only [List.mem_map, Prod.exists] at hdue
    obtain ⟨c, p, hp, rfl⟩ := hdue
    have ht := h.timed c p ((OrdMap.get_eq_some _ _ _).2 hp)
    simp only [List.map_cons, List.map_nil, List.mem_singleton] at hdue'
    subst hdue'
    by_cases hpos : 0 < r.requestTimeoutMs
    · obtain ⟨t, hdue, hle⟩ := ht.2 hpos
      simp only [hdue, if_pos hpos]
      exact hle
    · simp only [if_neg hpos]
      cases p.due <;> trivial
  · intro c p hp
    rcases (hget c p).1 hp with ⟨rfl, rfl⟩ | ⟨-, hp⟩
    · refine ⟨fun h0 => ?_, fun hpos => ⟨_, if_pos hpos, le_rfl⟩⟩
      have h0' : r.requestTimeoutMs = 0 := h0
      simp [h0']
    · exact h.timed c p hp

theorem total_enter (hfree : r.pending.get r.nextCorr = none) (peer : Bytes) (held : Option Bytes)
    (peer' : Bytes) : total peer' (r.enter peer held).pending = total peer' r.pending := by
  simp only [total, enter, OrdMap.sum_set_new _ _ _ _ hfree]
  simp

theorem sent_enter (hfree : r.pending.get r.nextCorr = none) (peer : Bytes) (held : Option Bytes)
    (peer' : Bytes) : sent peer' (r.enter peer held).pending = sent peer' r.pending := by
  simp only [sent, enter, OrdMap.sum_set_new _ _ _ _ hfree]
  simp

theorem putsOf_enter (h : r.Metered) (peer : Bytes) (held : Option Bytes) (peer' : Bytes) :
    (r.enter peer held).putsOf peer' = r.putsOf peer' := by
  refine List.filter_congr fun d hd => ?_
  have hold : (r.enter peer held).requests[d]? = r.requests[d]? :=
    List.getElem?_append_left (h.made d hd)
  simp only [hold]

/-- What waits does not see a new request whose id is in no window. -/
theorem waiting_enter (hfree : r.Free) (peer : Bytes) (held : Option Bytes) {peer' : Bytes}
    {q : Window} (hq : r.relayed.get peer' = some q) :
    q.waiting.filterMap (fun c => ((r.enter peer held).pending.get c).map Pending.d) =
      q.waiting.filterMap fun c => (r.pending.get c).map Pending.d := by
  refine List.filterMap_congr fun c hc => ?_
  have hne : c ≠ r.nextCorr := fun he => hfree.2 peer' q hq (he ▸ hc)
  simp [enter, OrdMap.get_set, hne]

/-- A request for a peer that is not reached through relays alone. -/
theorem Inv.enter (h : r.Inv m none) (hfree : r.Free) (peer : Bytes) :
    (r.enter peer none).Inv m none := by
  have hget := enter_get peer none r
  refine ⟨h.books.enter hfree.1 peer none, ⟨h.windows.nodup, ?_, ?_⟩, fun hm => ?_⟩
  · intro peer' q c p hq hc hp
    rcases (hget c p).1 hp with ⟨rfl, -⟩ | ⟨-, hp⟩
    · exact absurd hc (hfree.2 peer' q hq)
    · exact h.windows.waits peer' q c p hq hc hp
  · intro c p hp hheld
    rcases (hget c p).1 hp with ⟨-, rfl⟩ | ⟨-, hp⟩
    · simp at hheld
    · exact h.windows.holds c p hp hheld
  · have hme := h.metered hm
    refine ⟨?_, ?_, ?_, ?_, ?_⟩
    · intro peer' q hq
      rw [total_enter hfree.1]
      exact hme.bytes peer' q hq
    · intro peer'
      rw [total_enter hfree.1, sent_enter hfree.1]
      exact hme.bound peer'
    · intro c p hp hheld
      rcases (hget c p).1 hp with ⟨-, rfl⟩ | ⟨-, hp⟩
      · rfl
      · exact hme.unsent c p hp hheld
    · intro d hd
      have := hme.made d hd
      simp only [ReqRes.enter, List.length_append, List.length_singleton]
      omega
    · intro peer'
      have hord := hme.order peer'
      rw [putsOf_enter hme]
      simp only [waitingOf] at hord ⊢
      change List.Pairwise _ (_ ++ match r.relayed.get peer' with | none => _ | some q => _)
      cases hq : r.relayed.get peer' with
      | none => simpa [hq] using hord
      | some q =>
        simp only [hq] at hord ⊢
        rw [waiting_enter hfree peer none hq]
        exact hord

/-- A request for a relayed peer joins the end of its window. -/
theorem Inv.enqueue (h : r.Inv m none) (hfree : r.Free) (peer frame : Bytes)
    (hanew : m → r.relayed.get peer = none → total peer r.pending = 0) :
    Inv m none { r.enter peer (some frame) with
      relayed := (r.enter peer (some frame)).relayed.set peer
        ⟨((r.relayed.get peer).getD ⟨0, []⟩).bytes,
          ((r.relayed.get peer).getD ⟨0, []⟩).waiting ++ [r.nextCorr]⟩ } := by
  have hget := enter_get peer (some frame) r
  have hwaits : ∀ c ∈ ((r.relayed.get peer).getD ⟨0, []⟩).waiting, ∃ q,
      r.relayed.get peer = some q ∧ c ∈ q.waiting := by
    intro c hc
    cases hq : r.relayed.get peer with
    | none => simp [hq] at hc
    | some q => exact ⟨q, rfl, by simpa [hq] using hc⟩
  refine ⟨(h.books.enter hfree.1 peer (some frame)).congr rfl rfl rfl rfl rfl rfl le_rfl,
    ⟨?_, ?_, ?_⟩, fun hm => ?_⟩
  · intro peer' q hq
    rw [OrdMap.get_set] at hq
    split at hq
    · cases hq
      rw [List.nodup_append]
      refine ⟨?_, by simp, fun a ha b hb hab => ?_⟩
      · cases hq : r.relayed.get peer with
        | none => simp
        | some q => exact h.windows.nodup peer q hq
      · obtain ⟨q, hq, ha⟩ := hwaits a ha
        rw [List.mem_singleton] at hb
        exact hfree.2 peer q hq (by rw [← hb, ← hab]; exact ha)
    · exact h.windows.nodup peer' q hq
  · intro peer' q c p hq hc hp
    rw [OrdMap.get_set] at hq
    split at hq
    · rename_i hpp
      cases hq
      rcases (hget c p).1 hp with ⟨-, rfl⟩ | ⟨hne, hp⟩
      · exact ⟨by simp, hpp.symm⟩
      · rcases List.mem_append.1 hc with hc | hc
        · obtain ⟨q, hq, hc⟩ := hwaits c hc
          rw [hpp]
          exact h.windows.waits peer q c p hq hc hp
        · exact absurd (List.mem_singleton.1 hc) hne
    · rcases (hget c p).1 hp with ⟨rfl, -⟩ | ⟨-, hp⟩
      · exact absurd hc (hfree.2 peer' q hq)
      · exact h.windows.waits peer' q c p hq hc hp
  · intro c p hp hheld
    simp only [OrdMap.get_set]
    rcases (hget c p).1 hp with ⟨rfl, rfl⟩ | ⟨-, hp⟩
    · exact ⟨_, if_pos rfl, by simp⟩
    · obtain ⟨q, hq, hc⟩ := h.windows.holds c p hp hheld
      split
      · rename_i hpp
        rw [hpp] at hq
        exact ⟨_, rfl, by simp [hq, hc]⟩
      · exact ⟨q, hq, hc⟩
  · have hme := h.metered hm
    refine ⟨?_, ?_, ?_, ?_, ?_⟩
    · intro peer' q hq
      simp only [OrdMap.get_set] at hq
      change q.bytes = ((total peer' (r.enter peer (some frame)).pending : Nat) : Int)
      rw [total_enter hfree.1]
      split at hq
      · rename_i hpp
        cases hq
        rw [hpp]
        cases hq : r.relayed.get peer with
        | none => simp [hanew hm hq]
        | some q => exact hme.bytes peer q hq
      · exact hme.bytes peer' q hq
    · intro peer'
      change total peer' (r.enter peer (some frame)).pending ≤ _ ∨
        sent peer' (r.enter peer (some frame)).pending ≤ 1
      rw [total_enter hfree.1, sent_enter hfree.1]
      exact hme.bound peer'
    · intro c p hp hheld
      rcases (hget c p).1 hp with ⟨-, rfl⟩ | ⟨-, hp⟩
      · rfl
      · exact hme.unsent c p hp hheld
    · intro d hd
      have := hme.made d hd
      simp only [ReqRes.enter, List.length_append, List.length_singleton]
      omega
    · intro peer'
      have hord := hme.order peer'
      change List.Pairwise _ ((r.enter peer (some frame)).putsOf peer' ++ _)
      rw [putsOf_enter hme]
      simp only [waitingOf, OrdMap.get_set]
      by_cases hpp : peer' = peer
      · subst hpp
        have hnew : (r.enter peer' (some frame)).pending.get r.nextCorr = some _ :=
          OrdMap.get_set_self _ _ _
        have hold : ((r.relayed.get peer').getD ⟨0, []⟩).waiting.filterMap
            (fun c => ((r.enter peer' (some frame)).pending.get c).map Pending.d) =
            r.waitingOf peer' := by
          simp only [waitingOf]
          cases hq : r.relayed.get peer' with
          | none => rfl
          | some q => exact waiting_enter hfree peer' (some frame) hq
        rw [if_pos rfl]
        simp only [List.filterMap_append, List.filterMap_cons, List.filterMap_nil, hnew, hold,
          Option.map_some]
        rw [← List.append_assoc, List.pairwise_append]
        refine ⟨hord, by simp, fun a ha b hb => ?_⟩
        rw [List.mem_singleton.1 hb]
        rcases List.mem_append.1 ha with ha | ha
        · exact hme.made a (List.mem_of_mem_filter ha)
        · simp only [waitingOf] at ha
          cases hq : r.relayed.get peer' with
          | none => simp [hq] at ha
          | some q =>
            simp only [hq, List.mem_filterMap, Option.map_eq_some_iff] at ha
            obtain ⟨c, -, p, hp, rfl⟩ := ha
            exact (List.getElem?_eq_some_iff.1 (h.books.known c p hp)).1
      · rw [if_neg hpp]
        simp only [waitingOf] at hord
        change List.Pairwise _ (_ ++ match r.relayed.get peer' with | none => _ | some q => _)
        cases hq : r.relayed.get peer' with
        | none => simpa [hq] using hord
        | some q =>
          simp only [hq] at hord ⊢
          rw [waiting_enter hfree peer (some frame) hq]
          exact hord

theorem Inv.put_any (h : r.Inv m none) (fate : List Upset) : (r.put fate).Inv m none := by
  unfold ReqRes.put
  induction fate generalizing r with
  | nil => exact h
  | cons u fate ih => exact ih (h.upset u)

theorem Inv.request (h : r.Inv m none) (peer proto payload : Bytes) (noReply : Bool)
    (fates : List (List Upset)) (hfree : noReply = false → r.Free)
    (hanew : noReply = false → m → r.Anew peer) :
    (r.request peer proto payload noReply fates).Inv m none := by
  unfold ReqRes.request
  cases noReply with
  | true => exact h.put_any _
  | false =>
    simp only [Bool.false_eq_true, if_false]
    split
    · exact (h.enter (hfree rfl) peer).put_any _
    · rename_i hroute
      have hrel : r.route peer = .relayed := not_not.1 hroute
      exact (Inv.pumpRelayed peer fates
        (h.enqueue (hfree rfl) peer _ fun hm hnone => hanew rfl hm hrel hnone)).2

end Request

end ReqRes

end SeedTransport
