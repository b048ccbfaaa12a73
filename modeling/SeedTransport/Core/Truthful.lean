import SeedTransport.Core.Placement
import SeedTransport.Core.Pools

set_option autoImplicit false

namespace SeedTransport

/-! When a link that was given a frame took it. A link that has used up its epochs, or whose
queue is full, ends itself on the frame and drops it, and its caller still reports the frame
as taken; so does the loss of a link with records still to seal. -/

def Job.frame? : Job → Option Bytes
  | .record f => some f
  | _ => none

def Mark.frame? : Mark → Option Bytes
  | .seals _ f _ => some f
  | _ => none

namespace Link

/-- The frames waiting to be sealed. -/
def outbound (l : Link) : List Bytes := l.work.filterMap Job.frame?

/-- The frames taken up for sealing. -/
def sealedFrames (l : Link) : List Bytes := l.marks.filterMap Mark.frame?

/-- A frame waits in the link, which is going to seal it, or it was sealed. -/
def Carries (f : Bytes) (l : Link) : Prop :=
  l.closed = false ∧ f ∈ l.queue ∨ (l.closed = false ∨ l.parting = true) ∧ f ∈ l.outbound ∨
    f ∈ l.sealedFrames

/-- The link is open and has room for a frame, before its authentication or behind it, and
the frame is neither empty nor past the cap. -/
structure Takes (f : Bytes) (l : Link) : Prop where
  isOpen : l.closed = false
  fits : f.length + TAG_LEN ≤ l.node.maxFrameBytes
  nonempty : f ≠ []
  room : l.authed = true → l.sendEpoch < REJECT_AFTER_EPOCHS ∧
    l.outboundQueuedSlices < maxOutboundQueueSlices ∧
    f.length + l.outboundQueuedBytes ≤ l.node.maxOutboundQueueBytes
  queueRoom : l.authed = false → l.queue = [] ∨ l.queuedBytes + f.length ≤ MAX_QUEUE_BYTES ∧
    l.queue.length + 1 ≤ l.node.maxPreAuthQueueSlices

/-- What becomes of a link that goes on. -/
structure Onward (l l' : Link) : Prop where
  peerId : l'.peerId = l.peerId
  spec : l'.spec = l.spec
  authed : l'.authed = l.authed
  drained : l.authed = true → l.queue = [] → l'.queue = []
  carries : ∀ g, l.Carries g → l'.Carries g

theorem Onward.refl (l : Link) : l.Onward l := ⟨rfl, rfl, rfl, fun _ h => h, fun _ h => h⟩

theorem Onward.peerOf {l l' : Link} (h : l.Onward l') : l'.peerOf = l.peerOf := by
  simp only [Link.peerOf, h.peerId, h.spec]

theorem dropOldest_all {maxSlices : Nat} {q : List Bytes} {f : Bytes} {bytes : Nat}
    (h : q = [] ∨ bytes ≤ MAX_QUEUE_BYTES ∧ q.length + 1 ≤ maxSlices) :
    dropOldest maxSlices (q ++ [f]) bytes = (q ++ [f], bytes) := by
  rcases h with rfl | ⟨hb, hs⟩
  · simp [dropOldest]
  · match q with
    | [] => simp [dropOldest]
    | [g] =>
      simp only [List.cons_append, List.nil_append, dropOldest]
      rw [if_neg]
      simp only [List.length_cons, List.length_nil] at hs ⊢
      omega
    | g :: g' :: q =>
      simp only [List.cons_append, dropOldest]
      rw [if_neg]
      simp only [List.length_cons, List.length_append, List.length_nil] at hs ⊢
      omega

/-- A link with room takes the frame, keeps what it has, and stays open. -/
theorem Takes.send {f : Bytes} {l : Link} (h : l.Takes f) :
    (l.send f).closed = l.closed ∧ (l.send f).accepted = l.accepted ++ [f] ∧
      (l.send f).Carries f ∧ l.Onward (l.send f) := by
  have hlen : f.length ≠ 0 := by simpa using h.nonempty
  have hfits : ¬ l.node.maxFrameBytes < f.length + TAG_LEN := by
    have := h.fits
    omega
  cases ha : l.authed with
  | true =>
    obtain ⟨he, hs, hb⟩ := h.room ha
    have hsend : l.send f = enqueue (.record f)
        { markTraffic l with
          outboundQueuedSlices := l.outboundQueuedSlices + 1
          outboundQueuedBytes := l.outboundQueuedBytes + f.length
          accepted := l.accepted ++ [f] } := by
      have h1 : ¬ REJECT_AFTER_EPOCHS ≤ l.sendEpoch := by omega
      have h2 : ¬ (maxOutboundQueueSlices ≤ l.outboundQueuedSlices ∨
          l.node.maxOutboundQueueBytes < f.length + l.outboundQueuedBytes) := by omega
      simp [Link.send, h.isOpen, hfits, h.nonempty, ha, h1, h2]
    have hout : (l.send f).outbound = l.outbound ++ [f] := by
      rw [hsend]
      simp [outbound, enqueue, markTraffic, Job.frame?]
    have hcl : (l.send f).closed = l.closed := by rw [hsend]; rfl
    have hpa : (l.send f).parting = l.parting := by rw [hsend]; rfl
    have hq : (l.send f).queue = l.queue := by rw [hsend]; rfl
    have hse : (l.send f).sealedFrames = l.sealedFrames := by rw [hsend]; rfl
    refine ⟨hcl, by rw [hsend]; rfl, .inr (.inl ⟨.inl (hcl.trans h.isOpen), by simp [hout]⟩), ?_⟩
    refine ⟨by rw [hsend]; rfl, by rw [hsend]; rfl, by rw [hsend]; rfl, fun _ hn => by rw [hq, hn],
      fun g hg => ?_⟩
    unfold Carries at hg ⊢
    rw [hcl, hpa, hq, hse, hout]
    rcases hg with hg | ⟨ho, hg⟩ | hg
    · exact .inl hg
    · exact .inr (.inl ⟨ho, List.mem_append_left _ hg⟩)
    · exact .inr (.inr hg)
  | false =>
    have hdrop : dropOldest l.node.maxPreAuthQueueSlices (l.queue ++ [f])
        (l.queuedBytes + f.length) = (l.queue ++ [f], l.queuedBytes + f.length) :=
      dropOldest_all (h.queueRoom ha)
    have hsend : l.send f =
        { l with
          queue := l.queue ++ [f]
          queuedBytes := l.queuedBytes + f.length
          accepted := l.accepted ++ [f]
          shed := l.shed + ((l.queue ++ [f]).length - (l.queue ++ [f]).length) } := by
      simp [Link.send, h.isOpen, hfits, h.nonempty, ha, hdrop]
    have hcl : (l.send f).closed = l.closed := by rw [hsend]
    have hpa : (l.send f).parting = l.parting := by rw [hsend]
    have hq : (l.send f).queue = l.queue ++ [f] := by rw [hsend]
    have hse : (l.send f).sealedFrames = l.sealedFrames := by rw [hsend]; rfl
    have hout : (l.send f).outbound = l.outbound := by rw [hsend]; rfl
    refine ⟨hcl, by rw [hsend], .inl ⟨hcl.trans h.isOpen, by simp [hq]⟩, ?_⟩
    refine ⟨by rw [hsend], by rw [hsend], by rw [hsend], fun hauth => by simp [ha] at hauth,
      fun g hg => ?_⟩
    unfold Carries at hg ⊢
    rw [hcl, hpa, hq, hse, hout]
    rcases hg with ⟨ho, hg⟩ | hg | hg
    · exact .inl ⟨ho, List.mem_append_left _ hg⟩
    · exact .inr (.inl hg)
    · exact .inr (.inr hg)

end Link

namespace Exchange

/-! ### What a placement needs, and what it then does -/

/-- The link `Router.send` picks. -/
def picks (x : Exchange) (peer : Bytes) : Option Nat :=
  match x.pools.get peer with
  | none => none
  | some p => if p.links = [] then none else p.links[p.next % p.width]?

/-- The link `Core.place` picks. -/
def placesOn (x : Exchange) (peer : Bytes) : Option Nat :=
  match x.picks peer with
  | some i => some i
  | none => (x.connecting.get peer).bind List.head?

/-- The link `Router.sendOn` picks. -/
def sendsOn (x : Exchange) (peer : Bytes) (link : Nat) : Option Nat :=
  match x.pools.get peer with
  | none => none
  | some p => if link ∈ p.links.take p.width then some link else x.picks peer

/-- The link picked, if any, has room for the frame. -/
def Room (x : Exchange) (pick : Option Nat) (f : Bytes) : Prop :=
  ∀ i, pick = some i → ∀ l : Link, x.links[i]? = some l → l.Takes f

/-- A link took the frame. -/
def Accepted (x x' : Exchange) (f : Bytes) : Prop :=
  ∃ (i : Nat) (l l' : Link), x.links[i]? = some l ∧ x'.links[i]? = some l' ∧
    l'.accepted = l.accepted ++ [f]

/-- A link of its peer carries the frame of a request. -/
def Carried (x : Exchange) (a : Ask) : Prop :=
  a.peer ≠ [] ∧ ∃ (i : Nat) (l : Link), x.links[i]? = some l ∧ l.peerOf = a.peer ∧
    l.Carries a.frame

/-- What a node's routing keeps; the requests of `Q` may be without a link. -/
structure TidyBut (Q : Ask → Prop) (x : Exchange) : Prop where
  pooled : ∀ peer p, x.pools.get peer = some p → peer ≠ [] ∧ p.Split x.relayed ∧
    ∀ i ∈ p.links ++ p.held, ∃ l : Link, x.links[i]? = some l ∧ l.peerId = peer ∧ l.authed = true
  dials : ∀ peer is, x.connecting.get peer = some is → peer ≠ [] ∧ is ≠ [] ∧
    ∀ i ∈ is, ∃ l : Link, x.links[i]? = some l ∧ l.peerOf = peer
  drained : ∀ (i : Nat) (l : Link), x.links[i]? = some l → l.authed = true → l.queue = []
  carried : ∀ corr a, x.pending.get corr = some a → a.state = .put → x.Carried a ∨ Q a

/-- Every request put on a link is carried by one. -/
def Tidy (x : Exchange) : Prop := x.TidyBut fun _ => False

/-- A step that only moves links onward and cursors along. -/
structure Moved (x x' : Exchange) : Prop where
  pools : ∀ peer p', x'.pools.get peer = some p' → ∃ p, x.pools.get peer = some p ∧
    p'.links = p.links ∧ p'.direct = p.direct ∧ p'.held = p.held
  pooled : ∀ peer p, x.pools.get peer = some p → ∃ p', x'.pools.get peer = some p' ∧
    p'.links = p.links
  connecting : x'.connecting = x.connecting
  own : x'.own = x.own
  addrs : x'.addrs = x.addrs
  relayed : x'.relayed = x.relayed
  pending : x'.pending = x.pending
  resolved : x'.resolved = x.resolved
  links : ∀ (j : Nat) (l : Link), x.links[j]? = some l →
    ∃ l' : Link, x'.links[j]? = some l' ∧ l.Onward l'
  back : ∀ (j : Nat) (l' : Link), x'.links[j]? = some l' →
    ∃ l : Link, x.links[j]? = some l ∧ l.Onward l'

theorem Moved.carried {x x' : Exchange} (h : Moved x x') {a : Ask} (hc : x.Carried a) :
    x'.Carried a := by
  obtain ⟨hne, i, l, hl, hp, hf⟩ := hc
  obtain ⟨l', hl', ho⟩ := h.links i l hl
  exact ⟨hne, i, l', hl', ho.peerOf.trans hp, ho.carries _ hf⟩

theorem TidyBut.moved {Q : Ask → Prop} {x x' : Exchange} (h : x.TidyBut Q) (hm : Moved x x') :
    x'.TidyBut Q := by
  refine ⟨fun peer p' hp' => ?_, fun peer is his => ?_, fun i l' hl' ha => ?_,
    fun corr a ha hput => ?_⟩
  · obtain ⟨p, hp, hl, hd, hh⟩ := hm.pools peer p' hp'
    obtain ⟨hne, hsplit, hin⟩ := h.pooled peer p hp
    refine ⟨hne, ?_, fun i hi => ?_⟩
    · simpa only [Pool.Split, hl, hd, hm.relayed] using hsplit
    · rw [hl, hh] at hi
      obtain ⟨l, hli, hpeer, hauth⟩ := hin i hi
      obtain ⟨l', hl', ho⟩ := hm.links i l hli
      exact ⟨l', hl', ho.peerId.trans hpeer, ho.authed.trans hauth⟩
  · rw [hm.connecting] at his
    obtain ⟨hne, hnil, hin⟩ := h.dials peer is his
    refine ⟨hne, hnil, fun i hi => ?_⟩
    obtain ⟨l, hli, hpeer⟩ := hin i hi
    obtain ⟨l', hl', ho⟩ := hm.links i l hli
    exact ⟨l', hl', ho.peerOf.trans hpeer⟩
  · obtain ⟨l, hl, ho⟩ := hm.back i l' hl'
    rw [ho.authed] at ha
    exact ho.drained ha (h.drained i l hl ha)
  · rw [hm.pending] at ha
    exact (h.carried corr a ha hput).imp_left hm.carried

/-- A link with room is given a frame, behind at most a step of its pool's cursor. -/
theorem sendLink_takes {x : Exchange} {i : Nat} {l : Link} {f : Bytes} (hl : x.links[i]? = some l)
    (ht : l.Takes f) (forget : Nat → Exchange → Exchange) :
    x.sendLink forget i f = x.setLink i (l.send f) := by
  unfold sendLink
  rw [hl]
  simp [ht.send.1]

theorem getElem?_setLink (x : Exchange) (i j : Nat) (l : Link) :
    (x.setLink i l).links[j]? = if i = j ∧ j < x.links.length then some l else x.links[j]? := by
  simp only [setLink, List.getElem?_set]
  by_cases hij : i = j
  · subst hij
    by_cases hlt : i < x.links.length
    · simp [hlt]
    · simp [hlt]
  · simp [hij]

theorem moved_setLink {x : Exchange} {i : Nat} {l l' : Link} (hl : x.links[i]? = some l)
    (ho : l.Onward l') : Moved x (x.setLink i l') := by
  have hlt : i < x.links.length := (List.getElem?_eq_some_iff.1 hl).1
  refine ⟨fun peer p hp => ⟨p, hp, rfl, rfl, rfl⟩, fun peer p hp => ⟨p, hp, rfl⟩, rfl, rfl, rfl, rfl,
    rfl, rfl, fun j k hk => ?_, fun j k hk => ?_⟩
  · rw [getElem?_setLink]
    by_cases hij : i = j
    · subst hij
      obtain rfl := Option.some.inj (hl.symm.trans hk)
      exact ⟨l', by simp [hlt], ho⟩
    · exact ⟨k, by simp [hij, hk], .refl k⟩
  · rw [getElem?_setLink] at hk
    by_cases hij : i = j
    · subst hij
      simp only [hlt, and_self, if_true, Option.some.injEq] at hk
      subst hk
      exact ⟨l, hl, ho⟩
    · simp only [hij, false_and, if_false] at hk
      exact ⟨k, hk, .refl k⟩

theorem moved_setPool {x : Exchange} {peer : Bytes} {p : Pool} (hp : x.pools.get peer = some p)
    (next : Nat) : Moved x (x.setPool peer { p with next := next }) := by
  refine ⟨fun q p' hp' => ?_, fun q p' hp' => ?_, rfl, rfl, rfl, rfl, rfl, rfl,
    fun j l hl => ⟨l, hl, .refl l⟩, fun j l hl => ⟨l, hl, .refl l⟩⟩
  · simp only [setPool, OrdMap.get_set] at hp'
    split at hp'
    · rename_i hq
      subst hq
      obtain rfl := Option.some.inj hp'
      exact ⟨p, hp, rfl, rfl, rfl⟩
    · exact ⟨p', hp', rfl, rfl, rfl⟩
  · simp only [setPool, OrdMap.get_set]
    by_cases hq : q = peer
    · subst hq
      obtain rfl := Option.some.inj (hp.symm.trans hp')
      exact ⟨{ p with next := next }, by simp, rfl⟩
    · exact ⟨p', by simp [hq, hp'], rfl⟩

theorem Moved.trans {x y z : Exchange} (h : Moved x y) (h' : Moved y z) : Moved x z := by
  have onward : ∀ {l l' l'' : Link}, l.Onward l' → l'.Onward l'' → l.Onward l'' := by
    intro l l' l'' ho ho'
    exact ⟨ho'.peerId.trans ho.peerId, ho'.spec.trans ho.spec, ho'.authed.trans ho.authed,
      fun ha hq => ho'.drained (ho.authed.trans ha) (ho.drained ha hq),
      fun g hg => ho'.carries g (ho.carries g hg)⟩
  refine ⟨fun peer p hp => ?_, fun peer p hp => ?_, h'.connecting.trans h.connecting,
    h'.own.trans h.own, h'.addrs.trans h.addrs, h'.relayed.trans h.relayed,
    h'.pending.trans h.pending, h'.resolved.trans h.resolved, fun j l hl => ?_, fun j l hl => ?_⟩
  · obtain ⟨q, hq, h1, h2, h3⟩ := h'.pools peer p hp
    obtain ⟨r, hr, g1, g2, g3⟩ := h.pools peer q hq
    exact ⟨r, hr, h1.trans g1, h2.trans g2, h3.trans g3⟩
  · obtain ⟨q, hq, h1⟩ := h.pooled peer p hp
    obtain ⟨r, hr, g1⟩ := h'.pooled peer q hq
    exact ⟨r, hr, g1.trans h1⟩
  · obtain ⟨l', hl', ho⟩ := h.links j l hl
    obtain ⟨l'', hl'', ho'⟩ := h'.links j l' hl'
    exact ⟨l'', hl'', onward ho ho'⟩
  · obtain ⟨l', hl', ho'⟩ := h'.back j l hl
    obtain ⟨l'', hl'', ho⟩ := h.back j l' hl'
    exact ⟨l'', hl'', onward ho ho'⟩

/-- What a placement that was reported leaves: the frame is on a link of the peer. -/
structure Placed (x x' : Exchange) (peer f : Bytes) : Prop where
  named : peer ≠ []
  moved : Moved x x'
  accepted : Accepted x x' f
  carried : ∃ (i : Nat) (l : Link), x'.links[i]? = some l ∧ l.peerOf = peer ∧ l.Carries f

theorem placed_sendLink {x : Exchange} {i : Nat} {l : Link} {peer f : Bytes}
    (hl : x.links[i]? = some l) (ht : l.Takes f) (hne : peer ≠ []) (hp : l.peerOf = peer)
    (forget : Nat → Exchange → Exchange) : Placed x (x.sendLink forget i f) peer f := by
  rw [sendLink_takes hl ht]
  have hlt : i < x.links.length := (List.getElem?_eq_some_iff.1 hl).1
  obtain ⟨-, hacc, hcar, hon⟩ := ht.send
  have hget : (x.setLink i (l.send f)).links[i]? = some (l.send f) := by
    simp [getElem?_setLink, hlt]
  exact ⟨hne, moved_setLink hl hon, ⟨i, l, _, hl, hget, hacc⟩, i, _, hget, hon.peerOf.trans hp, hcar⟩

theorem Placed.after {x x' x'' : Exchange} {peer f : Bytes} (hm : Moved x x')
    (hl : x'.links = x.links) (h : Placed x' x'' peer f) : Placed x x'' peer f := by
  refine ⟨h.named, hm.trans h.moved, ?_, h.carried⟩
  obtain ⟨i, l, l', h1, h2, h3⟩ := h.accepted
  exact ⟨i, l, l', hl ▸ h1, h2, h3⟩

section Specs

variable {Q : Ask → Prop} {x : Exchange} {peer f : Bytes} (forget : Nat → Exchange → Exchange)

theorem send_spec (h : x.TidyBut Q) (hr : x.Room (x.picks peer) f) :
    x.picks peer = none ∧ x.send forget peer f = (false, x) ∨
      x.picks peer ≠ none ∧ ∃ x', x.send forget peer f = (true, x') ∧ Placed x x' peer f := by
  unfold send picks at *
  cases hp : x.pools.get peer with
  | none => exact .inl ⟨rfl, rfl⟩
  | some p =>
    simp only [hp] at hr ⊢
    by_cases hnil : p.links = []
    · simp only [hnil, if_true]
      exact .inl ⟨trivial, trivial⟩
    · simp only [hnil, if_false] at hr ⊢
      cases hi : p.links[p.next % p.width]? with
      | none => exact .inl ⟨rfl, rfl⟩
      | some i =>
        obtain ⟨hne, -, hin⟩ := h.pooled peer p hp
        obtain ⟨l, hl, hpeer, -⟩ := hin i (List.mem_append_left _ (List.mem_of_getElem? hi))
        have hof : l.peerOf = peer := by
          unfold Link.peerOf
          rw [if_pos (hpeer ▸ hne), hpeer]
        have hmoved := moved_setPool hp (p.next % p.width + 1)
        refine .inr ⟨by simp, _, rfl, Placed.after hmoved rfl ?_⟩
        exact placed_sendLink (x := x.setPool peer { p with next := p.next % p.width + 1 }) hl
          (hr i hi l hl) hne hof forget

theorem place_spec (h : x.TidyBut Q) (hr : x.Room (x.placesOn peer) f) :
    x.placesOn peer = none ∧ x.place forget peer f = (false, x) ∨
      x.placesOn peer ≠ none ∧ ∃ x', x.place forget peer f = (true, x') ∧ Placed x x' peer f := by
  have hr' : x.Room (x.picks peer) f := by
    intro i hi
    refine hr i ?_
    unfold placesOn
    rw [hi]
  rcases send_spec forget h hr' with ⟨hnone, hf⟩ | ⟨hsome, x', hs, hp⟩
  · unfold place placesOn at *
    rw [hf]
    simp only [hnone] at hr ⊢
    cases hc : x.connecting.get peer with
    | none => exact .inl ⟨rfl, rfl⟩
    | some is =>
      cases is with
      | nil => exact .inl ⟨rfl, rfl⟩
      | cons i is =>
        obtain ⟨hne, -, hin⟩ := h.dials peer _ hc
        obtain ⟨l, hl, hpeer⟩ := hin i List.mem_cons_self
        refine .inr ⟨by simp, _, rfl, placed_sendLink hl (hr i ?_ l hl) hne hpeer forget⟩
        simp [hc]
  · refine .inr ⟨?_, x', ?_, hp⟩
    · obtain ⟨i, hi⟩ := Option.ne_none_iff_exists'.1 hsome
      simp [placesOn, hi]
    · unfold place
      rw [hs]

/-- Nothing to place on: no link routes, and no dial is under way. -/
theorem unreached_of_placesOn (h : x.TidyBut Q) (hn : x.placesOn peer = none) :
    x.linkCount peer = 0 ∧ x.connecting.has peer = false := by
  unfold placesOn at hn
  cases hpick : x.picks peer with
  | some i => simp [hpick] at hn
  | none =>
    simp only [hpick] at hn
    constructor
    · unfold linkCount
      unfold picks at hpick
      cases hp : x.pools.get peer with
      | none => rfl
      | some p =>
        simp only [hp] at hpick ⊢
        obtain ⟨-, ⟨ds, rs, hl, hd, -⟩, -⟩ := h.pooled peer p hp
        by_contra hne
        have hnil : p.links ≠ [] := by
          intro hnil
          simp [hnil] at hne
        rw [if_neg hnil, List.getElem?_eq_none_iff] at hpick
        have hw : 0 < p.width ∧ p.width ≤ p.links.length := by
          have hpos : 0 < p.links.length := List.length_pos_iff.2 hnil
          have hle : p.direct ≤ p.links.length := by simp [hl, hd]
          unfold Pool.width
          split <;> omega
        have := Nat.mod_lt p.next hw.1
        omega
    · cases hc : x.connecting.get peer with
      | none =>
        rw [← Bool.not_eq_true, OrdMap.has_iff]
        simp [hc]
      | some is =>
        obtain ⟨-, hnil, -⟩ := h.dials peer is hc
        cases is with
        | nil => exact absurd rfl hnil
        | cons i is => simp [hc] at hn

end Specs

/-! ### Requests settled -/

@[simp] theorem finish_links (x : Exchange) (corr : Nat) (payload : Option Bytes) :
    (x.finish corr payload).links = x.links ∧ (x.finish corr payload).pools = x.pools ∧
      (x.finish corr payload).connecting = x.connecting ∧
      (x.finish corr payload).relayed = x.relayed := by
  unfold finish
  cases x.pending.get corr <;> exact ⟨rfl, rfl, rfl, rfl⟩

theorem finish_get (x : Exchange) (corr : Nat) (payload : Option Bytes) (c : Nat) :
    (x.finish corr payload).pending.get c = if c = corr then none else x.pending.get c := by
  unfold finish
  cases hp : x.pending.get corr with
  | none =>
    by_cases hc : c = corr
    · subst hc
      simp [hp]
    · simp [hc]
  | some a => simp only [OrdMap.get_delete]

/-- What settling requests leaves alone. -/
structure Settles (x x' : Exchange) : Prop where
  links : x'.links = x.links
  pools : x'.pools = x.pools
  connecting : x'.connecting = x.connecting
  relayed : x'.relayed = x.relayed
  pending : ∀ c a, x'.pending.get c = some a → x.pending.get c = some a

theorem Settles.refl (x : Exchange) : Settles x x := ⟨rfl, rfl, rfl, rfl, fun _ _ h => h⟩

theorem Settles.trans {x y z : Exchange} (h : Settles x y) (h' : Settles y z) : Settles x z :=
  ⟨h'.links.trans h.links, h'.pools.trans h.pools, h'.connecting.trans h.connecting,
    h'.relayed.trans h.relayed, fun c a hz => h.pending c a (h'.pending c a hz)⟩

theorem settles_finish (x : Exchange) (corr : Nat) (payload : Option Bytes) :
    Settles x (x.finish corr payload) := by
  obtain ⟨h1, h2, h3, h4⟩ := finish_links x corr payload
  refine ⟨h1, h2, h3, h4, fun c a hc => ?_⟩
  rw [finish_get] at hc
  split at hc
  · simp at hc
  · exact hc

theorem Settles.tidyBut {Q : Ask → Prop} {x x' : Exchange} (h : Settles x x') (ht : x.TidyBut Q) :
    x'.TidyBut Q := by
  refine ⟨?_, ?_, ?_, fun corr a ha hput => ?_⟩
  · rw [h.pools, h.links, h.relayed]
    exact ht.pooled
  · rw [h.connecting, h.links]
    exact ht.dials
  · rw [h.links]
    exact ht.drained
  · have := ht.carried corr a (h.pending corr a ha) hput
    simpa only [Carried, h.links] using this

theorem dropAll_spec (peer : Bytes) (ks : List Nat) (x : Exchange) :
    Settles x (ks.foldl (dropFor peer) x) ∧ ∀ c ∈ ks, ∀ a,
      (ks.foldl (dropFor peer) x).pending.get c = some a → a.peer ≠ peer := by
  induction ks generalizing x with
  | nil => exact ⟨.refl x, by simp⟩
  | cons k ks ih =>
    have hone : Settles x (x.dropFor peer k) ∧
        ∀ a, (x.dropFor peer k).pending.get k = some a → a.peer ≠ peer := by
      unfold dropFor
      cases hk : x.pending.get k with
      | none => exact ⟨.refl x, fun a ha => by simp [hk] at ha⟩
      | some b =>
        by_cases hb : b.peer = peer
        · simp only [hb, if_true]
          exact ⟨settles_finish x k none, fun a ha => by simp [finish_get] at ha⟩
        · simp only [hb, if_false]
          refine ⟨.refl x, fun a ha => ?_⟩
          rw [hk] at ha
          obtain rfl := Option.some.inj ha
          exact hb
    obtain ⟨hs, hrest⟩ := ih (x.dropFor peer k)
    refine ⟨hone.1.trans hs, fun c hc a ha => ?_⟩
    rcases List.mem_cons.1 hc with rfl | hc
    · exact hone.2 a (hs.pending c a ha)
    · exact hrest c hc a ha

theorem settles_peerDown (peer : Bytes) (x : Exchange) : Settles x (x.peerDown peer) :=
  (dropAll_spec peer _ x).1

theorem peerDown_get {peer : Bytes} {x : Exchange} {c : Nat} {a : Ask}
    (h : (x.peerDown peer).pending.get c = some a) : x.pending.get c = some a ∧ a.peer ≠ peer := by
  have hx := (settles_peerDown peer x).pending c a h
  refine ⟨hx, (dropAll_spec peer _ x).2 c ?_ a h⟩
  rw [OrdMap.mem_keys]
  exact ⟨a, hx⟩

theorem TidyBut.mono {Q R : Ask → Prop} {x : Exchange} (h : x.TidyBut Q) (hQ : ∀ a, Q a → R a) :
    x.TidyBut R :=
  ⟨h.pooled, h.dials, h.drained, fun corr a ha hp => (h.carried corr a ha hp).imp_right (hQ a)⟩

/-- A peer that is down has no request left. -/
theorem TidyBut.peerDown {Q : Ask → Prop} {x : Exchange} (h : x.TidyBut Q) (peer : Bytes) :
    (x.peerDown peer).TidyBut fun a => Q a ∧ a.peer ≠ peer := by
  have hs := settles_peerDown peer x
  have ht := hs.tidyBut h
  refine ⟨ht.pooled, ht.dials, ht.drained, fun corr a ha hput => ?_⟩
  exact (ht.carried corr a ha hput).imp_right fun hq => ⟨hq, (peerDown_get ha).2⟩

/-! ### A link that ends -/

theorem TidyBut.repool {Q : Ask → Prop} {x : Exchange} (h : x.TidyBut Q) {peer : Bytes} {p p' : Pool}
    (hp : x.pools.get peer = some p) (hs : p'.Split x.relayed)
    (hsub : ∀ i ∈ p'.links ++ p'.held, i ∈ p.links ++ p.held) : (x.setPool peer p').TidyBut Q := by
  refine ⟨fun q p'' hq => ?_, h.dials, h.drained, h.carried⟩
  simp only [setPool, OrdMap.get_set] at hq
  split at hq
  · rename_i heq
    subst heq
    obtain rfl := Option.some.inj hq
    obtain ⟨hne, -, hin⟩ := h.pooled _ p hp
    exact ⟨hne, hs, fun i hi => hin i (hsub i hi)⟩
  · exact h.pooled q p'' hq

theorem TidyBut.unpool {Q : Ask → Prop} {x : Exchange} (h : x.TidyBut Q) (peer : Bytes) :
    TidyBut Q { x with pools := x.pools.delete peer } := by
  refine ⟨fun q p hq => ?_, h.dials, h.drained, h.carried⟩
  simp only [OrdMap.get_delete] at hq
  split at hq
  · simp at hq
  · exact h.pooled q p hq

theorem TidyBut.remove {Q : Ask → Prop} {x : Exchange} (h : x.TidyBut Q) (i : Nat) (l : Link) :
    (x.remove i l).TidyBut Q := by
  unfold Exchange.remove
  cases hp : x.pools.get l.peerId with
  | none => exact h
  | some p =>
    obtain ⟨-, hsplit, -⟩ := h.pooled _ p hp
    simp only
    split
    · refine h.repool hp hsplit fun j hj => ?_
      rcases List.mem_append.1 hj with hj | hj
      · exact List.mem_append_left _ hj
      · exact List.mem_append_right _ (List.mem_of_mem_erase hj)
    · split
      · exact h
      · have hun := hsplit.unlist i
        split
        · refine h.repool hp hun fun j hj => ?_
          simp only [Pool.unlist_links, Pool.unlist_held, List.mem_append] at hj ⊢
          exact hj.imp_left List.mem_of_mem_erase
        · split
          · obtain ⟨h1, h2, h3⟩ := Pool.relist x.relayed (p.unlist (x.relayed i) i).held
              (p := { p.unlist (x.relayed i) i with held := [] }) hun
            refine h.repool hp h1 fun j hj => ?_
            rw [h3, List.append_nil, h2.mem_iff] at hj
            simp only [Pool.unlist_links, Pool.unlist_held, List.mem_append] at hj ⊢
            exact hj.symm.imp_left List.mem_of_mem_erase
          · exact ((h.unpool l.peerId).peerDown l.peerId).mono fun _ hq => hq.1

/-- The only link of its peer. -/
def LastLink (x : Exchange) (i : Nat) (l : Link) : Prop :=
  ∃ p, x.pools.get l.peerId = some p ∧ p.links = [i] ∧ p.held = []

theorem TidyBut.dropConnecting {Q : Ask → Prop} {x : Exchange} (h : x.TidyBut Q) (i : Nat)
    (l : Link) : (x.dropConnecting i l).TidyBut Q := by
  unfold Exchange.dropConnecting
  cases hc : x.connecting.get l.spec.dialedPeerId with
  | none => exact h
  | some is =>
    obtain ⟨hne, -, hin⟩ := h.dials _ is hc
    simp only
    split
    · split
      · refine ⟨h.pooled, fun q js hq => ?_, h.drained, h.carried⟩
        simp only [OrdMap.get_delete] at hq
        split at hq
        · simp at hq
        · exact h.dials q js hq
      · rename_i hnil
        refine ⟨h.pooled, fun q js hq => ?_, h.drained, h.carried⟩
        simp only [OrdMap.get_set] at hq
        split at hq
        · rename_i heq
          subst heq
          obtain rfl := Option.some.inj hq
          exact ⟨hne, hnil, fun j hj => hin j (List.mem_of_mem_erase hj)⟩
        · exact h.dials q js hq
    · exact h

/-- Each frame handed on finds the link it goes to with room. -/
def PlacesAll (forget : Nat → Exchange → Exchange) (peer : Bytes) : List Bytes → Exchange → Prop
  | [], _ => True
  | f :: fs, x => x.Room (x.placesOn peer) f ∧ PlacesAll forget peer fs (x.place forget peer f).2

theorem placeAll_unreached {forget : Nat → Exchange → Exchange} {Q : Ask → Prop} {x : Exchange}
    {peer : Bytes} (h : x.TidyBut Q) (hn : x.placesOn peer = none) (fs : List Bytes) :
    x.placeAll forget peer fs = x := by
  induction fs with
  | nil => rfl
  | cons f fs ih =>
    have hr : x.Room (x.placesOn peer) f := by
      intro i hi
      rw [hn] at hi
      simp at hi
    rcases place_spec forget h hr with ⟨-, hf⟩ | ⟨hsome, -⟩
    · simp only [placeAll, List.foldl_cons, hf]
      exact ih
    · exact absurd hn hsome

/-- What a dying link hands on is carried by other links, or its peer is out of reach. -/
theorem TidyBut.placeAll {forget : Nat → Exchange → Exchange} {x : Exchange} {peer : Bytes}
    (fs : List Bytes) (h : x.TidyBut fun a => a.peer = peer ∧ a.frame ∈ fs)
    (hp : PlacesAll forget peer fs x) :
    (x.placeAll forget peer fs).Tidy ∨
      (x.placeAll forget peer fs).TidyBut (fun a => a.peer = peer) ∧
        (x.placeAll forget peer fs).linkCount peer = 0 ∧
        (x.placeAll forget peer fs).connecting.has peer = false := by
  induction fs generalizing x with
  | nil => exact .inl (h.mono fun a ha => by simp at ha)
  | cons f fs ih =>
    obtain ⟨hr, hrest⟩ := hp
    rcases place_spec forget h hr with ⟨hn, -⟩ | ⟨-, x', hs, hpl⟩
    · rw [placeAll_unreached h hn]
      exact .inr ⟨h.mono fun _ ha => ha.1, unreached_of_placesOn h hn⟩
    · have heq : x.placeAll forget peer (f :: fs) = x'.placeAll forget peer fs := by
        simp [Exchange.placeAll, hs]
      rw [heq]
      rw [hs] at hrest
      refine ih ?_ hrest
      have hm := h.moved hpl.moved
      refine ⟨hm.pooled, hm.dials, hm.drained, fun corr a ha hput => ?_⟩
      rcases hm.carried corr a ha hput with hc | ⟨hpeer, hf⟩
      · exact .inl hc
      · rcases List.mem_cons.1 hf with hf | hf
        · obtain ⟨i, l, hl, hof, hcar⟩ := hpl.carried
          exact .inl ⟨hpeer ▸ hpl.named, i, l, hl, hof.trans hpeer.symm, hf ▸ hcar⟩
        · exact .inr ⟨hpeer, hf⟩

/-- What a call that ends a link leaves of it. -/
structure Ended (l l' : Link) : Prop where
  closed : l'.closed = true
  peerId : l'.peerId = l.peerId
  spec : l'.spec = l.spec
  authed : l'.authed = l.authed
  queue : l'.queue = l.queue
  outbound : l'.outbound = l.outbound
  sealedFrames : l'.sealedFrames = l.sealedFrames

theorem teardown_eq (l : Link) :
    l.teardown.closed = l.closed ∧ l.teardown.peerId = l.peerId ∧ l.teardown.spec = l.spec ∧
      l.teardown.authed = l.authed ∧ l.teardown.queue = l.queue ∧ l.teardown.work = l.work ∧
      l.teardown.marks = l.marks ∧ l.teardown.parting = l.parting := by
  unfold Link.teardown Link.clearEphemeral Link.releaseSlot
  cases l.slot <;> exact ⟨rfl, rfl, rfl, rfl, rfl, rfl, rfl, rfl⟩

/-- A link ends with nothing left to seal, or it goes on sealing, or it is the last link of
its peer; and what waits for its authentication finds room elsewhere. -/
structure EndsWell (x : Exchange) (i : Nat) (how : How) (l : Link) : Prop where
  sealing : (ended how l).parting = true ∨ l.outbound = [] ∨ l.closed = false ∧ x.LastLink i l
  handsOn : l.closed = false → l.peerOf ≠ [] →
    PlacesAll (forget x.links.length) l.peerOf l.queue
      ((((x.setLink i (ended how l)).dropConnecting i (ended how l)).remove i
        (ended how l)).setLink i (ended how l).handOn)

/-- The condition on a step: whatever is put on a link finds room there, and a link that ends
ends well. -/
def Meets (x : Exchange) : Event → Prop
  | .ask .. => True
  | .put corr => ∀ a, x.pending.get corr = some a → a.peer ≠ x.own →
      x.Room (x.placesOn a.peer) a.frame
  | .dialed corr => ∀ a, x.pending.get corr = some a → x.Room (x.placesOn a.peer) a.frame
  | .send peer f => x.Room (x.picks peer) f
  | .sendOn peer link f => x.Room (x.sendsOn peer link) f
  | .place peer f => x.Room (x.placesOn peer) f
  | .sendFrame peer f => peer ≠ x.own → x.Room (x.placesOn peer) f
  | .endLink i how => ∀ l, x.links[i]? = some l → x.EndsWell i how l
  | .finish .. => True
  | .other x' => x'.Tidy

def AllMeet (x : Exchange) : List Event → Prop
  | [] => True
  | e :: es => x.Meets e ∧ AllMeet (x.step e) es

section Steps

variable {x : Exchange}

theorem Placed.request {x' : Exchange} {a : Ask} (h : Placed x x' a.peer a.frame) : x'.Carried a :=
  ⟨h.named, h.carried⟩

end Steps

end Exchange

end SeedTransport
