import SeedTransport.Udp.Model

set_option autoImplicit false

namespace SeedTransport

/-! The sockets of the birthday punch: the budget all negotiations share, and who owns each
socket of the realm. -/

namespace UdpSockets

/-- The sockets of `ids` close, one after another. -/
theorem listeners_closeAll (ids : List Nat) (u : UdpSockets) (id : Nat) :
    (ids.foldl (fun u id => u.close id) u).listeners.get id =
      if id ∈ ids then none else u.listeners.get id := by
  induction ids generalizing u with
  | nil => simp
  | cons x ids ih =>
    rw [List.foldl_cons, ih]
    simp only [close, OrdMap.get_delete, List.mem_cons]
    by_cases hx : id = x
    · simp [hx]
    · simp [hx]

theorem opened_closeAll (ids : List Nat) (u : UdpSockets) (id : Nat) :
    id ∈ (ids.foldl (fun u id => u.close id) u).opened ↔ id ∈ u.opened ∧ id ∉ ids := by
  induction ids generalizing u with
  | nil => simp
  | cons x ids ih =>
    rw [List.foldl_cons, ih]
    simp only [close, List.mem_filter, decide_eq_true_eq, List.mem_cons, not_or]
    tauto

theorem budget_closeAll (ids : List Nat) (u : UdpSockets) :
    (ids.foldl (fun u id => u.close id) u).birthdayBudget = u.birthdayBudget := by
  induction ids generalizing u with
  | nil => rfl
  | cons x ids ih =>
    rw [List.foldl_cons, ih]
    rfl

end UdpSockets

/-- A negotiation that may still punch. -/
def Negotiation.Punching (g : Negotiation) : Prop := g.dead = false ∧ g.path = none

/-- What a negotiation has taken from the budget, and its birthday sockets. -/
structure Reserved (g : Negotiation) : Prop where
  nonneg : 0 ≤ g.reservedExtra
  over' : ¬g.Punching → g.extra.getD [] = [] ∧ g.reservedExtra = 0
  room : g.Punching → ((g.extra.getD []).length : Int) + g.binds + g.left ≤ g.reservedExtra ∧ 0 ≤ g.left
  hard : g.Punching → g.extra ≠ none → g.hard = true ∧ g.spraying = false
  spraying : g.spraying = true → g.peerHard ≠ []
  idle : g.Punching → g.extra = none → g.spraying = false → g.reservedExtra = 0 ∧ g.reserves = 0
  once : g.reserves ≤ 1
  unasked : g.extra = none → g.binds = 0 ∧ g.left = 0

/-- Whose the sockets are. -/
structure Own (c : Punch) : Prop where
  budget : 0 ≤ c.udp.birthdayBudget
  mine : ∀ id, c.udp.listeners.get id = some c.n → c.self.dead = false ∧ id ∈ c.self.sockets
  listens : c.self.dead = false → ∀ id ∈ c.self.sockets,
    c.udp.listeners.get id = some c.n ∧ id ∈ c.udp.opened ∧ id ≠ 0
  reserved : Reserved c.self

/-- `c` may become `d`: what it owns stays in order, what it takes comes from the budget, what
others listen on stays, and a socket it gives up is closed. -/
def Goes (c d : Punch) : Prop :=
  Own c → Own d ∧ d.n = c.n ∧
    d.udp.birthdayBudget + d.self.reservedExtra = c.udp.birthdayBudget + c.self.reservedExtra ∧
    (∀ id, c.udp.listeners.get id ≠ some c.n →
      d.udp.listeners.get id = c.udp.listeners.get id ∧ (id ∈ d.udp.opened ↔ id ∈ c.udp.opened)) ∧
    ∀ id, c.udp.listeners.get id = some c.n →
      d.udp.listeners.get id = some c.n ∨ d.udp.listeners.get id = none ∧ id ∉ d.udp.opened

namespace Goes

variable {c d e : Punch}

theorem refl (c : Punch) : Goes c c :=
  fun h => ⟨h, rfl, rfl, fun _ _ => ⟨rfl, Iff.rfl⟩, fun _ hid => .inl hid⟩

theorem trans (h : Goes c d) (h' : Goes d e) : Goes c e := by
  intro hc
  obtain ⟨hd, hn, hb, ho, hm⟩ := h hc
  obtain ⟨he, hn', hb', ho', hm'⟩ := h' hd
  refine ⟨he, hn'.trans hn, hb'.trans hb, fun id hid => ?_, fun id hid => ?_⟩
  · obtain ⟨hl, hop⟩ := ho id hid
    obtain ⟨hl', hop'⟩ := ho' id (by rwa [hl, hn])
    exact ⟨hl'.trans hl, hop'.trans hop⟩
  · rcases hm id hid with hl | ⟨hl, hop⟩
    · have hgone := hm' id (by rw [hl, hn])
      rwa [hn] at hgone
    · obtain ⟨hl', hop'⟩ := ho' id (by simp [hl])
      exact .inr ⟨hl'.trans hl, fun hin => hop (hop'.1 hin)⟩

/-- A change of the negotiation alone, that keeps its sockets and its share. -/
theorem upd {f : Negotiation → Negotiation} (hdead : (f c.self).dead = c.self.dead)
    (hsock : (f c.self).sockets = c.self.sockets) (hres : (f c.self).reservedExtra = c.self.reservedExtra)
    (h : Reserved c.self → Reserved (f c.self)) : Goes c (c.upd f) := by
  intro hc
  refine ⟨⟨hc.budget, ?_, ?_, h hc.reserved⟩, rfl, by simp [Punch.upd, hres], fun _ _ => ⟨rfl, Iff.rfl⟩,
    fun _ hid => .inl hid⟩
  · intro id hid
    simp only [Punch.upd, hdead, hsock]
    exact hc.mine id hid
  · simp only [Punch.upd, hdead, hsock]
    exact hc.listens

end Goes

/-- The fields a share depends on. -/
theorem Reserved.congr {g g' : Negotiation} (h : Reserved g) (hdead : g'.dead = g.dead)
    (hpath : g'.path = g.path) (hextra : g'.extra = g.extra) (hres : g'.reservedExtra = g.reservedExtra)
    (hbinds : g'.binds = g.binds) (hleft : g'.left = g.left) (hmapped : g'.mapped = g.mapped)
    (hpeer : g'.peerHard = g.peerHard) (hspray : g'.spraying = g.spraying) (hn : g'.reserves = g.reserves) :
    Reserved g' := by
  have hp : g'.Punching ↔ g.Punching := by simp [Negotiation.Punching, hdead, hpath]
  have hh : g'.hard = g.hard := by simp [Negotiation.hard, hmapped]
  refine ⟨?_, ?_, ?_, ?_, ?_, ?_, ?_, ?_⟩
  · rw [hres]
    exact h.nonneg
  · rw [hp, hextra, hres]
    exact h.over'
  · rw [hp, hextra, hbinds, hleft, hres]
    exact h.room
  · rw [hp, hextra, hh, hspray]
    exact h.hard
  · rw [hspray, hpeer]
    exact h.spraying
  · rw [hp, hextra, hspray, hres, hn]
    exact h.idle
  · rw [hn]
    exact h.once
  · rw [hextra, hbinds, hleft]
    exact h.unasked

namespace Goes

variable {c d e : Punch}

/-- A change of fields that the sockets and the share do not depend on. -/
theorem aside {f : Negotiation → Negotiation} (h : ∀ g, (f g).dead = g.dead ∧ (f g).path = g.path ∧
    (f g).socket = g.socket ∧ (f g).extra = g.extra ∧ (f g).reservedExtra = g.reservedExtra ∧
    (f g).binds = g.binds ∧ (f g).left = g.left ∧ (f g).mapped = g.mapped ∧ (f g).peerHard = g.peerHard ∧
    (f g).spraying = g.spraying ∧ (f g).reserves = g.reserves) (c : Punch) : Goes c (c.upd f) := by
  obtain ⟨h1, h2, h3, h4, h5, h6, h7, h8, h9, h10, h11⟩ := h c.self
  exact upd h1 (by simp [Negotiation.sockets, h3, h4]) h5 fun hr => hr.congr h1 h2 h4 h5 h6 h7 h8 h9 h10 h11

theorem ite {p : Prop} [Decidable p] {d' : Punch} (h : p → Goes c d) (h' : ¬p → Goes c d') :
    Goes c (if p then d else d') := by
  split
  · exact h ‹_›
  · exact h' ‹_›

theorem foldl {α : Type} {f : Punch → α → Punch} (hf : ∀ c x, Goes c (f c x)) (xs : List α) (c : Punch) :
    Goes c (xs.foldl f c) := by
  induction xs generalizing c with
  | nil => exact refl c
  | cons x xs ih => exact (hf c x).trans (ih _)

theorem mark (m : PathMark) (c : Punch) : Goes c (c.mark m) := aside (by simp) c

theorem sendEach (id : Nat) (addrs : List Addr) (p : Bytes) (c : Punch) : Goes c (c.sendEach id addrs p) :=
  foldl (fun c _ => mark _ c) addrs c

theorem stopPunching (c : Punch) : Goes c c.stopPunching := aside (by simp) c

/-- One more bind is asked for out of those left. -/
theorem next (c : Punch) : Goes c c.next := by
  refine ite (fun _ => refl c) fun hg => upd rfl rfl rfl fun hr => ?_
  obtain ⟨hleft, hdead, hpath⟩ : c.self.left ≠ 0 ∧ c.self.dead = false ∧ c.self.path = none := by
    simpa [not_or] using hg
  have hp : c.self.Punching := ⟨hdead, hpath⟩
  obtain ⟨hroom, hle⟩ := hr.room hp
  refine ⟨hr.nonneg, hr.over', fun _ => ⟨?_, ?_⟩, hr.hard, hr.spraying, hr.idle, hr.once, fun he => ?_⟩
  · simp only
    push_cast
    omega
  · simp only
    omega
  · exact absurd (hr.unasked he).2 hleft

/-- A change of the negotiation and of the budget, that keeps its sockets. -/
theorem share {f : Negotiation → Negotiation} {u : UdpSockets → UdpSockets}
    (hdead : (f c.self).dead = c.self.dead) (hsock : (f c.self).sockets = c.self.sockets)
    (hl : (u c.udp).listeners = c.udp.listeners) (ho : (u c.udp).opened = c.udp.opened)
    (h : Own c → Reserved (f c.self) ∧ 0 ≤ (u c.udp).birthdayBudget ∧
      (u c.udp).birthdayBudget + (f c.self).reservedExtra = c.udp.birthdayBudget + c.self.reservedExtra) :
    Goes c ((c.onUdp u).upd f) := by
  intro hc
  obtain ⟨hr, hb, hsum⟩ := h hc
  refine ⟨⟨hb, ?_, ?_, hr⟩, rfl, hsum, fun id _ => ?_, fun id hid => .inl (by simpa [Punch.upd, Punch.onUdp, hl])⟩
  · intro id hid
    simp only [Punch.upd, Punch.onUdp, hl, hdead, hsock] at hid ⊢
    exact hc.mine id hid
  · simp only [Punch.upd, Punch.onUdp, hl, ho, hdead, hsock]
    exact hc.listens
  · simp only [Punch.upd, Punch.onUdp, hl, ho]
    exact ⟨trivial, trivial⟩

/-- The hard end takes its sockets while it holds none. -/
theorem openBirthday (hp : c.self.Punching) : Goes c c.openBirthday := by
  refine ite (fun hg => ?_) fun _ => refl c
  obtain ⟨hhard, hpeer, -, hextra⟩ := hg
  refine trans (share rfl (by simp [Negotiation.sockets, hextra]) rfl rfl fun hc => ?_) (foldl (fun c _ => next c) _ _)
  have hr := hc.reserved
  have hspray : c.self.spraying = false := by
    by_contra hs
    exact hr.spraying (by simpa using hs) hpeer
  obtain ⟨hzero, hreserves⟩ := hr.idle hp hextra hspray
  obtain ⟨hroom, hleft⟩ := hr.room hp
  have hbudget := hc.budget
  simp only [hextra, Option.getD_none, List.length_nil] at hroom
  have hbinds : c.self.binds = 0 := by omega
  simp only [UdpSockets.takeSockets]
  refine ⟨⟨?_, ?_, ?_, ?_, ?_, ?_, ?_, ?_⟩, ?_, ?_⟩
  · simp only [BIRTHDAY_SOCKETS]
    omega
  · exact fun hn => absurd hp hn
  · intro _
    simp only [hbinds, Option.getD_some, List.length_nil, BIRTHDAY_SOCKETS]
    omega
  · exact fun _ _ => ⟨hhard, hspray⟩
  · exact hr.spraying
  · simp
  · simp [hreserves]
  · simp
  · simp only [BIRTHDAY_SOCKETS]
    omega
  · simp only [hzero, BIRTHDAY_SOCKETS]
    omega

/-- The easy end takes a whole share or none. -/
theorem startSpray (hp : c.self.Punching) : Goes c c.startSpray := by
  refine ite (fun hg => ?_) fun _ => refl c
  obtain ⟨hspray, heasy, hpeer⟩ := hg
  refine ite (fun hgot => ?_) fun _ => ?_
  · refine share rfl rfl rfl rfl fun hc => ?_
    have hr := hc.reserved
    have hnot : c.self.hard = false := by
      simp only [Negotiation.easy, Bool.and_eq_true, Bool.not_eq_true'] at heasy
      exact heasy.2
    have hextra : c.self.extra = none := by
      by_contra he
      simp [(hr.hard hp he).1] at hnot
    obtain ⟨hzero, hreserves⟩ := hr.idle hp hextra hspray
    obtain ⟨hroom, hleft⟩ := hr.room hp
    have hbudget := hc.budget
    rw [hgot]
    have hgot' : min BIRTHDAY_SOCKETS c.udp.birthdayBudget = BIRTHDAY_SOCKETS := hgot
    simp only [UdpSockets.takeSockets, hgot']
    refine ⟨⟨?_, ?_, ?_, ?_, ?_, ?_, ?_, ?_⟩, ?_, ?_⟩
    · simp [BIRTHDAY_SOCKETS]
    · exact fun hn => absurd hp hn
    · intro _
      simp only [hzero, BIRTHDAY_SOCKETS] at hroom ⊢
      omega
    · exact fun _ he => absurd hextra he
    · exact fun _ => hpeer
    · simp
    · simp [hreserves]
    · exact hr.unasked
    · omega
    · simp only [hzero]
      omega
  · have hback : ((c.onUdp fun u => (u.takeSockets BIRTHDAY_SOCKETS).2).onUdp fun u =>
        u.freeSockets (c.udp.takeSockets BIRTHDAY_SOCKETS).1) = c := by
      simp only [Punch.onUdp, UdpSockets.takeSockets, UdpSockets.freeSockets]
      rw [Int.sub_add_cancel]
    exact hback.symm ▸ refl c

/-- Taking sockets neither ends the negotiation nor gives it a path. -/
theorem punching_openBirthday (hp : c.self.Punching) : c.openBirthday.self.Punching := by
  have hnext : ∀ d : Punch, d.self.Punching → d.next.self.Punching := by
    intro d hd
    unfold Punch.next
    split
    · exact hd
    · exact hd
  have hall : ∀ (ks : List Nat) (d : Punch), d.self.Punching →
      (ks.foldl (fun c _ => c.next) d).self.Punching := by
    intro ks
    induction ks with
    | nil => exact fun d hd => hd
    | cons k ks ih => exact fun d hd => ih _ (hnext d hd)
  unfold Punch.openBirthday
  split
  · exact hall _ _ hp
  · exact hp

theorem birthday (c : Punch) : Goes c c.birthday := by
  refine ite (fun _ => refl c) fun hg => ?_
  have hp : c.self.Punching := by
    simp only [not_or, Bool.not_eq_true, not_not] at hg
    exact ⟨hg.2.1, hg.2.2.1⟩
  exact (openBirthday hp).trans (startSpray (punching_openBirthday hp))

theorem spray (random : Nat → Nat) (c : Punch) : Goes c (c.spray random) :=
  ite (fun _ => (sendEach _ _ _ c).trans (aside (by simp) _)) fun _ => refl c

theorem countRound (c : Punch) : Goes c c.countRound :=
  (aside (by simp) c).trans (ite (fun _ => birthday _) fun _ => refl _)

theorem round (random : Nat → Nat) (c : Punch) : Goes c (c.round random) :=
  (aside (by simp) c).trans (ite (fun _ => refl _) fun _ =>
    (((sendEach _ _ _ _).trans (spray random _)).trans (countRound _)).trans (aside (by simp) _))

theorem probe (random : Nat → Nat) (c : Punch) : Goes c (c.probe random) :=
  ite (fun _ => refl c) fun _ => round random c

/-- One more hard address of the peer's. -/
theorem addHard (a : Addr) (c : Punch) : Goes c (c.upd fun g => { g with peerHard := g.peerHard ++ [a] }) :=
  upd rfl rfl rfl fun h => ⟨h.nonneg, h.over', h.room, h.hard, by simp, h.idle, h.once, h.unasked⟩

theorem addPeer (a : Addr) (random : Nat → Nat) (c : Punch) : Goes c (c.addPeer a random) :=
  ite (fun _ => refl c) fun _ => ite
    (fun _ => ite (fun _ => refl c) fun _ => (addHard a c).trans (birthday _))
    fun _ => ite (fun _ => refl c) fun _ => ((aside (by simp) c).trans
      (foldl (fun c id => mark _ c) _ _)).trans (probe random _)

theorem askStun (c : Punch) : Goes c c.askStun :=
  (aside (by simp) c).trans (ite (fun _ => refl _) fun _ =>
    (foldl (fun c _ => mark _ c) _ _).trans (aside (by simp) _))

/-- A hard end stays hard as more answers come. -/
theorem hard_append (g : Negotiation) (a : Addr) (h : g.hard = true) :
    ({ g with mapped := g.mapped ++ [a] } : Negotiation).hard = true := by
  unfold Negotiation.hard at h ⊢
  simp only [List.any_eq_true] at h ⊢
  obtain ⟨m, hm, hne⟩ := h
  refine ⟨m, List.mem_append_left _ hm, ?_⟩
  obtain ⟨x, xs, hx⟩ := List.exists_cons_of_ne_nil (List.ne_nil_of_mem hm)
  simpa [hx] using hne

theorem addMapped (a : Addr) (c : Punch) : Goes c (c.upd fun g => { g with mapped := g.mapped ++ [a] }) :=
  upd rfl rfl rfl fun h => ⟨h.nonneg, h.over', h.room,
    fun hp he => ⟨hard_append _ a (h.hard hp he).1, (h.hard hp he).2⟩, h.spraying, h.idle, h.once, h.unasked⟩

theorem freeExtra_eq (h : 0 ≤ c.self.reservedExtra) :
    c.freeExtra = (c.onUdp fun u => u.freeSockets c.self.reservedExtra).upd fun g => { g with reservedExtra := 0 } := by
  unfold Punch.freeExtra
  split
  · rfl
  · have hz : c.self.reservedExtra = 0 := by omega
    obtain ⟨g, u, n, now⟩ := c
    simp only [Punch.onUdp, Punch.upd, UdpSockets.freeSockets] at hz ⊢
    rw [hz, Int.add_zero, ← hz]

/-- The punching ends: every socket but `keep` closes, and the share goes back. A live
negotiation keeps one of its own. -/
theorem settle {f : Negotiation → Negotiation} {keep : Nat} (hsock : (f c.self).sockets = c.self.sockets)
    (hres : (f c.self).reservedExtra = c.self.reservedExtra) (hspray : (f c.self).spraying = c.self.spraying)
    (hpeer : (f c.self).peerHard = c.self.peerHard) (hn : (f c.self).reserves = c.self.reserves)
    (hp : ¬(f c.self).Punching) (hlive : c.self.dead = false)
    (hkeep : (f c.self).dead = true ∧ keep = 0 ∨ (f c.self).dead = false ∧ keep ∈ c.self.sockets) :
    Goes c ((c.upd f).keepOnly keep) := by
  intro hc
  have hr := hc.reserved
  have hfree : 0 ≤ (((c.upd f).onUdp fun u => ((c.upd f).self.sockets.filter fun id => id ≠ keep).foldl
      (fun u id => u.close id) u).upd fun g => { g with socket := keep, extra := some [] }).self.reservedExtra := by
    simpa [Punch.upd, Punch.onUdp, hres] using hr.nonneg
  rw [Punch.keepOnly, freeExtra_eq hfree]
  refine ⟨⟨?_, ?_, ?_, ?_⟩, rfl, ?_, ?_, ?_⟩
  · have := hc.budget
    have := hr.nonneg
    simp only [Punch.upd, Punch.onUdp, UdpSockets.freeSockets, UdpSockets.budget_closeAll, hres]
    omega
  · intro id hid
    simp only [Punch.upd, Punch.onUdp, UdpSockets.freeSockets, UdpSockets.listeners_closeAll, hsock] at hid ⊢
    split at hid
    · cases hid
    · rename_i hnot
      have hmem := (hc.mine id hid).2
      have hid' : id = keep := by
        by_contra hne
        exact hnot (by simpa using ⟨hmem, hne⟩)
      subst hid'
      rcases hkeep with ⟨-, hzero⟩ | ⟨hlive', -⟩
      · exact absurd hzero (hc.listens hlive id hmem).2.2
      · exact ⟨hlive', by simp [Negotiation.sockets]⟩
  · intro hlive' id hid
    simp only [Punch.upd, Punch.onUdp, UdpSockets.freeSockets, Negotiation.sockets, Option.getD_some,
      List.mem_singleton] at hlive' hid ⊢
    subst hid
    rcases hkeep with ⟨hdead, -⟩ | ⟨-, hmem⟩
    · simp [hdead] at hlive'
    · obtain ⟨hl, ho, hz⟩ := hc.listens hlive id hmem
      simp [UdpSockets.listeners_closeAll, UdpSockets.opened_closeAll, hl, ho, hz]
  · refine ⟨le_refl _, fun _ => ⟨rfl, rfl⟩, fun h => absurd h hp, fun h => absurd h hp, ?_,
      fun h => absurd h hp, ?_, by simp [Punch.upd, Punch.onUdp]⟩
    · simp only [Punch.upd, Punch.onUdp, hspray, hpeer]
      exact hr.spraying
    · simp only [Punch.upd, Punch.onUdp, hn]
      exact hr.once
  · simp only [Punch.upd, Punch.onUdp, UdpSockets.freeSockets, UdpSockets.budget_closeAll, hres]
    omega
  · intro id hid
    have hnot : id ∉ c.self.sockets := fun hmem => hid (hc.listens hlive id hmem).1
    simp [Punch.upd, Punch.onUdp, UdpSockets.freeSockets, UdpSockets.listeners_closeAll,
      UdpSockets.opened_closeAll, hsock, hnot]
  · intro id hid
    have hmem := (hc.mine id hid).2
    simp only [Punch.upd, Punch.onUdp, UdpSockets.freeSockets, UdpSockets.listeners_closeAll,
      UdpSockets.opened_closeAll, hsock]
    by_cases hk : id = keep
    · left
      simpa [hk] using hk ▸ hid
    · right
      simp [hmem, hk]

theorem close (c : Punch) : Goes c c.close := by
  refine ite (fun _ => refl c) fun hlive => ?_
  exact settle (f := fun g => { g with dead := true, roundAt := ⊤, stunAt := ⊤ }) rfl rfl rfl rfl rfl
    (by simp [Negotiation.Punching]) (by simpa using hlive) (.inl ⟨rfl, rfl⟩)

theorem closeIf (b : Bool) (c : Punch) : Goes c (c.closeIf b) := ite (fun _ => close c) fun _ => refl c

theorem onMapped (a : Addr) (fx : Fx) (c : Punch) : Goes c (c.onMapped a fx) :=
  ((addMapped a c).trans (closeIf _ _)).trans (birthday _)

theorem onStun (p : Bytes) (fx : Fx) (c : Punch) : Goes c (c.onStun p fx) := by
  unfold Punch.onStun
  split
  · exact refl c
  · split
    · exact refl c
    · exact (aside (by simp) c).trans (onMapped _ fx _)

/-- The socket the path is on is its own, so it is kept. -/
theorem choose {id : Nat} (a : Addr) (fx : Fx) (hid : c.udp.listeners.get id = some c.n) :
    Goes c (c.choose id a fx) := by
  refine ite (fun _ => refl c) fun _ => ?_
  intro hc
  obtain ⟨hlive, hmem⟩ := hc.mine id hid
  have hkeep : Goes c ((c.upd fun g => { g with
      path := some a
      pathHeard := c.now
      log := (g.log ++ [.took a g.challenge]) ++ [.heard c.now a] }).keepOnly id) :=
    settle rfl rfl rfl rfl rfl (by simp [Negotiation.Punching]) hlive (.inr ⟨hlive, hmem⟩)
  exact ((hkeep.trans (stopPunching _)).trans (closeIf _ _)) hc

theorem onProbe (id : Nat) (p : Bytes) (a : Addr) (fx : Fx) (c : Punch) : Goes c (c.onProbe id p a fx) :=
  ite (fun _ => refl c) fun _ => (((aside (by simp) c).trans (mark _ _)).trans
    (ite (fun _ => mark _ _) fun _ => refl _)).trans (addPeer a _ _)

/-- A path moves only for a negotiation that has one. -/
theorem moved (a : Addr) (echoed : Bytes) (hpath : c.self.path ≠ none) : Goes c (c.moved a echoed) := by
  unfold Punch.moved
  split
  · exact refl c
  · refine ite (fun _ => refl c) fun _ => ite (fun _ => refl c) fun _ => ?_
    refine trans (upd rfl rfl rfl fun h => ?_) (mark _ _)
    have hp : ¬c.self.Punching := fun hp => hpath hp.2
    exact ⟨h.nonneg, fun _ => h.over' hp, by simp [Negotiation.Punching], by simp [Negotiation.Punching],
      h.spraying, by simp [Negotiation.Punching], h.once, h.unasked⟩

theorem onProbeAck {id : Nat} (p : Bytes) (a : Addr) (fx : Fx) (hid : c.udp.listeners.get id = some c.n) :
    Goes c (c.onProbeAck id p a fx) :=
  ite (fun _ => refl c) fun _ => (mark _ c).trans (ite (fun hpath => moved a _ hpath) fun _ =>
    ite (fun _ => choose a fx hid) fun _ => refl _)

theorem challengeMove (m : Moving) (c : Punch) : Goes c (c.challengeMove m) :=
  (aside (by simp) c).trans (mark _ _)

theorem probeMove (a : Addr) (c : Punch) : Goes c (c.probeMove a) := by
  refine ite (fun _ => refl c) fun _ => ?_
  split
  · exact ite (fun _ => aside (by simp) c) fun _ => challengeMove _ c
  · unfold Punch.fresh
    split
    · rename_i heq
      split at heq
      · cases heq
        exact aside (by simp) c
      · cases heq
    · rename_i heq
      split at heq
      · cases heq
      · cases heq
        exact (aside (by simp) c).trans (challengeMove _ _)

theorem onStream (a : Addr) (fx : Fx) (c : Punch) : Goes c (c.onStream a fx) := by
  unfold Punch.onStream
  split
  · exact refl c
  · exact ((mark _ c).trans (ite (fun _ => aside (by simp) _) fun _ => probeMove a _)).trans (closeIf _ _)

theorem onPacket {id : Nat} (p : Bytes) (a : Addr) (fx : Fx) (hid : c.udp.listeners.get id = some c.n) :
    Goes c (c.onPacket id p a fx) :=
  ite (fun _ => refl c) fun _ => ite (fun _ => onStun p fx c) fun _ => ite (fun _ => refl c) fun _ =>
    ite (fun _ => onProbe id p a fx c) fun _ => ite (fun _ => onProbeAck p a fx hid) fun _ => onStream a fx c

theorem description (token : Option Bytes) (fx : Fx) (c : Punch) : Goes c (c.description token fx) := by
  refine ite (fun _ => refl c) fun _ => ?_
  split
  · exact close c
  · exact (aside (by simp) c).trans (probe _ _)

theorem candidate (a : Option Addr) (fx : Fx) (c : Punch) : Goes c (c.candidate a fx) := by
  refine ite (fun _ => refl c) fun _ => ?_
  cases a with
  | none => exact close c
  | some a => exact addPeer a _ c

theorem start (fx : Fx) (c : Punch) : Goes c (c.start fx) :=
  (((aside (by simp) c).trans (closeIf _ _)).trans (askStun _)).trans (probe _ _)

theorem onWake (fx : Fx) (c : Punch) : Goes c (c.onWake fx) :=
  ite (fun _ => refl c) fun _ => ((ite (fun _ => askStun c) fun _ => refl c).trans
    (ite (fun _ => round _ _) fun _ => refl _)).trans (closeIf _ _)

theorem refilled (b : Option Bytes) (c : Punch) : Goes c (c.refilled b) := by
  unfold Punch.refilled
  split
  · exact aside (by simp) c
  · exact aside (by simp) c

/-- One bind in flight ends. -/
theorem unbind (c : Punch) : Goes c (c.upd fun g => { g with binds := g.binds - 1 }) := by
  refine upd rfl rfl rfl fun h => ⟨h.nonneg, h.over', fun hp => ?_, h.hard, h.spraying, h.idle, h.once,
    fun he => ?_⟩
  · obtain ⟨hroom, hleft⟩ := h.room hp
    simp only
    omega
  · simp [h.unasked he]

end Goes

namespace Punch

/-- Sending and asking for a bind leave the tables alone. -/
theorem udp_sendEach (id : Nat) (addrs : List Addr) (p : Bytes) (c : Punch) :
    (c.sendEach id addrs p).udp = c.udp := by
  unfold sendEach
  induction addrs generalizing c with
  | nil => rfl
  | cons a addrs ih => exact ih _

theorem udp_next (c : Punch) : c.next.udp = c.udp := by
  unfold next
  split
  · rfl
  · rfl

end Punch

/-- A live negotiation takes a socket that nobody listens on. -/
theorem Own.listen {c : Punch} {id : Nat} (hc : Own c) (hp : c.self.Punching) (hbinds : 0 < c.self.binds)
    (hz : id ≠ 0) (hop : id ∈ c.udp.opened) :
    Own (((c.upd fun g => { g with binds := g.binds - 1 }).upd fun g =>
      { g with extra := some (g.extra.getD [] ++ [id]) }).onUdp fun u => u.listen id c.n) := by
  have hr := hc.reserved
  have hextra : c.self.extra ≠ none := by
    intro he
    have := (hr.unasked he).1
    omega
  obtain ⟨hroom, hleft⟩ := hr.room hp
  refine ⟨hc.budget, fun x hx => ?_, fun hlive x hx => ?_, ?_⟩
  · simp only [Punch.upd, Punch.onUdp, UdpSockets.listen, Negotiation.sockets] at hx ⊢
    by_cases hxid : x = id
    · exact ⟨hp.1, by simp [hxid]⟩
    · rw [OrdMap.get_set, if_neg hxid] at hx
      have hmem := (hc.mine x hx).2
      simp only [Negotiation.sockets, List.mem_cons] at hmem
      exact ⟨hp.1, by simpa using hmem.imp_right .inl⟩
  · simp only [Punch.upd, Punch.onUdp, UdpSockets.listen, Negotiation.sockets] at hx ⊢
    by_cases hxid : x = id
    · subst hxid
      exact ⟨by simp, hop, hz⟩
    · rw [OrdMap.get_set, if_neg hxid]
      refine hc.listens hp.1 x ?_
      simpa [Negotiation.sockets, hxid] using hx
  · refine ⟨hr.nonneg, fun hn => absurd hp hn, fun _ => ?_, fun _ _ => hr.hard hp hextra, hr.spraying, by simp [Punch.onUdp, Punch.upd],
      hr.once, by simp [Punch.onUdp, Punch.upd]⟩
    simp only [Punch.onUdp, Punch.upd, Option.getD_some, List.length_append, List.length_singleton]
    omega

/-- A bind ends well with socket `id`: a negotiation that still punches listens on it, any
other closes it. -/
theorem Own.extraBound {c : Punch} {id : Nat} (hc : Own c) (hbinds : 0 < c.self.binds) (hz : id ≠ 0)
    (hid : c.udp.listeners.get id = none) (hop : id ∈ c.udp.opened) :
    Own (c.extraBound (some id)) ∧ (c.extraBound (some id)).n = c.n ∧
      (c.extraBound (some id)).udp.birthdayBudget + (c.extraBound (some id)).self.reservedExtra =
        c.udp.birthdayBudget + c.self.reservedExtra ∧
      (∀ x, x ≠ id → (c.extraBound (some id)).udp.listeners.get x = c.udp.listeners.get x ∧
        (x ∈ (c.extraBound (some id)).udp.opened ↔ x ∈ c.udp.opened)) ∧
      (c.self.Punching ∧ (c.extraBound (some id)).udp.listeners.get id = some c.n ∧
          id ∈ (c.extraBound (some id)).udp.opened ∨
        ¬c.self.Punching ∧ (c.extraBound (some id)).udp.listeners.get id = none ∧
          id ∉ (c.extraBound (some id)).udp.opened) := by
  by_cases hp : c.self.Punching
  · have heq : c.extraBound (some id) = ((((c.upd fun g => { g with binds := g.binds - 1 }).upd fun g =>
        { g with extra := some (g.extra.getD [] ++ [id]) }).onUdp fun u => u.listen id c.n).sendEach id
          c.self.peerCandidates c.self.probePacket).next := by
      simp only [Punch.extraBound, Punch.addExtra]
      rw [if_neg (by simp [Punch.upd, hp.1, hp.2])]
      rfl
    have hown := hc.listen hp hbinds hz hop
    obtain ⟨hown', hn, hsum, -⟩ := (Goes.trans (Goes.sendEach id c.self.peerCandidates c.self.probePacket _)
      (Goes.next _)) hown
    rw [heq]
    refine ⟨hown', hn, hsum, fun x hx => ?_, .inl ⟨hp, ?_⟩⟩
    · rw [Punch.udp_next, Punch.udp_sendEach]
      exact ⟨by simp [Punch.onUdp, Punch.upd, UdpSockets.listen, OrdMap.get_set, hx], Iff.rfl⟩
    · rw [Punch.udp_next, Punch.udp_sendEach]
      exact ⟨OrdMap.get_set_self _ _ _, hop⟩
  · have hguard : c.self.dead = true ∨ c.self.path ≠ none := by
      by_contra hg
      simp only [not_or, Bool.not_eq_true, not_not] at hg
      exact hp hg
    have heq : c.extraBound (some id) =
        (c.upd fun g => { g with binds := g.binds - 1 }).onUdp fun u => u.close id := by
      simp only [Punch.extraBound, Punch.addExtra]
      exact (congrArg Punch.next (if_pos hguard)).trans (if_pos (.inr hguard))
    obtain ⟨hown, -, hsum, -⟩ := Goes.unbind c hc
    rw [heq]
    refine ⟨⟨hown.budget, fun x hx => ?_, fun hlive x hx => ?_, hown.reserved⟩, rfl, hsum, fun x hx => ?_,
      .inr ⟨hp, ?_⟩⟩
    · simp only [Punch.onUdp, Punch.upd, UdpSockets.close, OrdMap.get_delete] at hx ⊢
      split at hx
      · cases hx
      · exact hown.mine x hx
    · obtain ⟨hl, ho, hxz⟩ := hown.listens hlive x hx
      have hxid : x ≠ id := by
        rintro rfl
        simp only [Punch.upd, hid] at hl
        cases hl
      simp only [Punch.onUdp, UdpSockets.close, OrdMap.get_delete, if_neg hxid, List.mem_filter]
      exact ⟨hl, ⟨ho, by simpa using hxid⟩, hxz⟩
    · simp [Punch.onUdp, Punch.upd, UdpSockets.close, OrdMap.get_delete, hx]
    · simp [Punch.onUdp, Punch.upd, UdpSockets.close, OrdMap.get_delete]

/-! ### The node -/

/-- What negotiation `n` does to socket `id`: nothing, or it gives it up and closes it, or it
listens on one new. -/
def Touches (n : Nat) (u v : UdpSockets) (id : Nat) : Prop :=
  (v.listeners.get id = u.listeners.get id ∧ (id ∈ v.opened ↔ id ∈ u.opened)) ∨
  (u.listeners.get id = some n ∧ v.listeners.get id = none ∧ id ∉ v.opened) ∨
  (u.listeners.get id = none ∧ id ∉ u.opened ∧ v.listeners.get id = some n ∧ id ∈ v.opened)

/-- The socket of an `open` that draws its entropy. -/
def Opening.socket : Opening → Option Nat
  | .binding _ _ => none
  | .drawing _ _ id => some id

namespace UdpNode

/-- The sockets of the calls of `open` under way. -/
def drawn (s : UdpNode) : List Nat := s.opening.filterMap Opening.socket

/-- The budget is the node's, less what its negotiations have taken; every open socket is a
negotiation's, or an `open`'s. -/
structure Booked (s : UdpNode) : Prop where
  budget : 0 ≤ s.sockets.birthdayBudget
  sum : s.sockets.birthdayBudget + (s.negs.map fun g => g.reservedExtra).sum = MAX_NODE_BIRTHDAY_SOCKETS
  each : ∀ n g, s.negs[n]? = some g → Own ⟨g, s.sockets, n, s.now⟩
  owner : ∀ id n, s.sockets.listeners.get id = some n → n < s.negs.length
  held : ∀ id ∈ s.sockets.opened, s.sockets.listeners.get id ≠ none ∨ id ∈ s.drawn
  drawn : ∀ id ∈ s.drawn, id ∈ s.sockets.opened ∧ s.sockets.listeners.get id = none ∧ id ≠ 0
  apart : s.drawn.Nodup

variable {s : UdpNode} {n : Nat} {g : Negotiation}

/-- What one negotiation does to the sockets leaves the others' in order. -/
theorem Booked.other {d : Punch} {m : Nat} {g' : Negotiation} (h : Booked s) (hd : Own d)
    (hm : s.negs[m]? = some g') (hne : m ≠ n) (ht : ∀ id, Touches n s.sockets d.udp id) :
    Own ⟨g', d.udp, m, s.now⟩ := by
  have hown := h.each m g' hm
  refine ⟨hd.budget, fun id hid => ?_, fun hlive id hid => ?_, hown.reserved⟩
  · simp only at hid
    rcases ht id with ⟨hl, -⟩ | ⟨-, hl, -⟩ | ⟨-, -, hl, -⟩
    · exact hown.mine id (hl ▸ hid)
    · simp [hl] at hid
    · rw [hl] at hid
      exact absurd (Option.some.inj hid).symm hne
  · obtain ⟨hl', ho', hz⟩ := hown.listens hlive id hid
    simp only at hl' ho' ⊢
    rcases ht id with ⟨hl, ho⟩ | ⟨hl, -⟩ | ⟨hl, -⟩
    · exact ⟨hl.trans hl', ho.2 ho', hz⟩
    · rw [hl] at hl'
      exact absurd (Option.some.inj hl').symm hne
    · simp [hl] at hl'

/-- Negotiation `n` becomes what `d` has of it, and the sockets with it. -/
theorem Booked.replace {d : Punch} (h : Booked s) (hg : s.negs[n]? = some g) (hd : Own d) (hn : d.n = n)
    (hshare : d.udp.birthdayBudget + d.self.reservedExtra = s.sockets.birthdayBudget + g.reservedExtra)
    (ht : ∀ id, Touches n s.sockets d.udp id) :
    Booked { s with sockets := d.udp, negs := s.negs.set n d.self } := by
  obtain ⟨hlt, hget⟩ := List.getElem?_eq_some_iff.1 hg
  refine ⟨hd.budget, ?_, fun m g' hm => ?_, fun id m hid => ?_, fun id hid => ?_, fun id hid => ?_, h.apart⟩
  · have hsum := h.sum
    rw [List.map_set, List.sum_set', dif_pos (by simpa using hlt)]
    simp only [List.getElem_map, hget]
    omega
  · by_cases hne : m = n
    · subst hne
      have hself : g' = d.self := by simpa [List.getElem?_set_self hlt, eq_comm] using hm
      subst hself
      exact ⟨hd.budget, hn ▸ hd.mine, hn ▸ hd.listens, hd.reserved⟩
    · rw [List.getElem?_set_ne (Ne.symm hne)] at hm
      exact h.other hd hm hne ht
  · simp only [List.length_set]
    simp only at hid
    rcases ht id with ⟨hl, -⟩ | ⟨-, hl, -⟩ | ⟨-, -, hl, -⟩
    · exact h.owner id m (hl ▸ hid)
    · simp [hl] at hid
    · rw [hl] at hid
      exact Option.some.inj hid ▸ hlt
  · simp only at hid ⊢
    rcases ht id with ⟨hl, ho⟩ | ⟨-, -, ho⟩ | ⟨-, -, hl, -⟩
    · rw [hl]
      exact h.held id (ho.1 hid)
    · exact absurd hid ho
    · exact .inl (by simp [hl])
  · obtain ⟨ho', hl', hz⟩ := h.drawn id hid
    simp only
    rcases ht id with ⟨hl, ho⟩ | ⟨hl, -⟩ | ⟨-, ho, -⟩
    · exact ⟨ho.2 ho', hl.trans hl', hz⟩
    · simp [hl] at hl'
    · exact absurd ho' ho

/-- A negotiation at work keeps the books. -/
theorem Booked.onNeg {f : Punch → Punch} (h : Booked s)
    (hf : ∀ g, s.negs[n]? = some g → Goes ⟨g, s.sockets, n, s.now⟩ (f ⟨g, s.sockets, n, s.now⟩)) :
    Booked (s.onNeg n f) := by
  unfold UdpNode.onNeg
  split
  · exact h
  · rename_i g hg
    have hown := h.each n g hg
    obtain ⟨hd, hn, hshare, hother, hmine⟩ := hf g hg hown
    refine h.replace hg hd hn hshare fun id => ?_
    by_cases hid : s.sockets.listeners.get id = some n
    · obtain ⟨hlive, hmem⟩ := hown.mine id hid
      rcases hmine id hid with hl | ⟨hl, ho⟩
      · have hlive' := (hd.mine id (hn ▸ hl))
        have hopen := (hd.listens hlive'.1 id hlive'.2).2.1
        exact .inl ⟨hl.trans hid.symm, iff_of_true hopen (hown.listens hlive id hmem).2.1⟩
      · exact .inr (.inl ⟨hid, hl, ho⟩)
    · exact .inl (hother id hid)

/-- A socket that is listened on is open. -/
theorem Booked.listened {id m : Nat} (h : Booked s) (hl : s.sockets.listeners.get id = some m) :
    id ∈ s.sockets.opened := by
  have hown := h.each m _ (List.getElem?_eq_getElem (h.owner id m hl))
  obtain ⟨hlive, hmem⟩ := hown.mine id hl
  exact (hown.listens hlive id hmem).2.1

/-- Nobody has a socket the host has just bound. -/
theorem Booked.fresh {id : Nat} (h : Booked s) (hid : s.fresh id = true) :
    id ≠ 0 ∧ id ∉ s.sockets.opened ∧ s.sockets.listeners.get id = none ∧ id ∉ s.drawn := by
  obtain ⟨hz, hnew⟩ : id ≠ 0 ∧ id ∉ s.sockets.opened := by simpa [UdpNode.fresh] using hid
  refine ⟨hz, hnew, ?_, fun hin => hnew (h.drawn id hin).1⟩
  by_contra hl
  obtain ⟨m, hm⟩ := Option.ne_none_iff_exists'.1 hl
  exact hnew (h.listened hm)

/-- One more open socket takes nothing from a negotiation. -/
theorem Booked.bound (h : Booked s) (hg : s.negs[n]? = some g) (id : Nat) :
    Own ⟨g, (s.bound id).sockets, n, s.now⟩ := by
  have hown := h.each n g hg
  refine ⟨hown.budget, hown.mine, fun hlive x hx => ?_, hown.reserved⟩
  obtain ⟨hl, ho, hxz⟩ := hown.listens hlive x hx
  exact ⟨hl, List.mem_append_left _ ho, hxz⟩

theorem onNeg_bound {id : Nat} {f : Punch → Punch} (hg : s.negs[n]? = some g) :
    (s.bound id).onNeg n f = { s with
      sockets := (f ⟨g, (s.bound id).sockets, n, s.now⟩).udp
      negs := s.negs.set n (f ⟨g, (s.bound id).sockets, n, s.now⟩).self } := by
  simp [UdpNode.onNeg, UdpNode.bound, hg]

/-- A bind ends with a socket nobody has. -/
theorem Booked.extraBound {id : Nat} (h : Booked s) (hg : s.negs[n]? = some g) (hbinds : 0 < g.binds)
    (hid : s.fresh id = true) : Booked ((s.bound id).onNeg n (Punch.extraBound (some id))) := by
  obtain ⟨hz, hnew, hfree, -⟩ := h.fresh hid
  obtain ⟨hd, hn, hshare, hother, hthis⟩ :=
    (h.bound hg id).extraBound hbinds hz hfree (by simp [UdpNode.bound])
  rw [onNeg_bound hg]
  refine h.replace hg hd hn hshare fun x => ?_
  by_cases hx : x = id
  · subst hx
    rcases hthis with ⟨-, hl, ho⟩ | ⟨-, hl, ho⟩
    · exact .inr (.inr ⟨hfree, hnew, hl, ho⟩)
    · exact .inl ⟨hl.trans hfree.symm, iff_of_false ho hnew⟩
  · obtain ⟨hl, ho⟩ := hother x hx
    exact .inl ⟨hl, ho.trans (by simp [UdpNode.bound, hx])⟩

/-- A call of `open` leaves the list with its socket. -/
theorem drawn_erase {o : Opening} (ho : o ∈ s.opening) :
    s.drawn.Perm (o.socket.toList ++ (s.opening.erase o).filterMap Opening.socket) := by
  have hperm := (List.perm_cons_erase ho).filterMap Opening.socket
  rw [List.filterMap_cons] at hperm
  cases hs : o.socket with
  | none => simpa [hs, drawn] using hperm
  | some id => simpa [hs, drawn] using hperm

/-- Only the calls of `open` change, and not their sockets. -/
theorem Booked.opens {os : List Opening} (h : Booked s) (hperm : (os.filterMap Opening.socket).Perm s.drawn) :
    Booked { s with opening := os } := by
  refine ⟨h.budget, h.sum, h.each, h.owner, fun id hid => ?_, fun id hid => ?_, hperm.nodup_iff.2 h.apart⟩
  · exact (h.held id hid).imp_right fun hin => hperm.mem_iff.2 hin
  · exact h.drawn id (hperm.mem_iff.1 hid)

/-- A call of `open` gets its socket. -/
theorem Booked.bindOpen {id : Nat} {os : List Opening} {offer : Bool} {stun : List Addr} (h : Booked s)
    (hid : s.fresh id = true) (hperm : s.drawn.Perm (os.filterMap Opening.socket)) :
    Booked { ({ s with opening := os } : UdpNode).bound id with opening := os ++ [.drawing offer stun id] } := by
  obtain ⟨hz, hnew, hfree, hnot⟩ := h.fresh hid
  have hdrawn : ((os ++ [Opening.drawing offer stun id]).filterMap Opening.socket).Perm (id :: s.drawn) := by
    rw [List.filterMap_append]
    exact (List.perm_append_singleton id _).trans (hperm.symm.cons id)
  refine ⟨h.budget, h.sum, fun n g hg => ?_, h.owner, fun x hx => ?_, fun x hx => ?_,
    hdrawn.nodup_iff.2 (List.nodup_cons.2 ⟨hnot, h.apart⟩)⟩
  · have hown := h.each n g hg
    refine ⟨hown.budget, hown.mine, fun hlive x hx => ?_, hown.reserved⟩
    obtain ⟨hl, ho, hxz⟩ := hown.listens hlive x hx
    exact ⟨hl, List.mem_append_left _ ho, hxz⟩
  · rcases List.mem_append.1 hx with hx | hx
    · exact (h.held x hx).imp_right fun hin => hdrawn.mem_iff.2 (List.mem_cons_of_mem _ hin)
    · exact .inr (hdrawn.mem_iff.2 (by simp [List.mem_singleton.1 hx]))
  · rcases List.mem_cons.1 (hdrawn.mem_iff.1 hx) with rfl | hin
    · exact ⟨by simp [UdpNode.bound], hfree, hz⟩
    · obtain ⟨ho, hl, hxz⟩ := h.drawn x hin
      exact ⟨List.mem_append_left _ ho, hl, hxz⟩

theorem Booked.openBound (h : Booked s) (o : Opening) (r : Option Nat) : Booked (s.openBound o r) := by
  cases o with
  | drawing offer stun id => exact h
  | binding offer stun =>
    simp only [UdpNode.openBound]
    split
    · rename_i ho
      have hperm := drawn_erase ho
      simp only [Opening.socket, Option.toList_none, List.nil_append] at hperm
      cases r with
      | none => exact h.opens hperm.symm
      | some id =>
        simp only
        split
        · rename_i hid
          exact h.bindOpen hid hperm
        · exact h
    · exact h

/-- The entropy did not come: the socket closes. -/
theorem Booked.dropOpen {id : Nat} {os : List Opening} (h : Booked s)
    (hperm : s.drawn.Perm (id :: os.filterMap Opening.socket)) :
    Booked { s with opening := os, sockets := s.sockets.close id } := by
  obtain ⟨hnot, hnodup⟩ := List.nodup_cons.1 (hperm.nodup_iff.1 h.apart)
  have hfree := (h.drawn id (hperm.mem_iff.2 (by simp))).2.1
  have hget : ∀ x, (s.sockets.listeners.delete id).get x = s.sockets.listeners.get x := by
    intro x
    rw [OrdMap.get_delete]
    split
    · rename_i hx
      rw [hx, hfree]
    · rfl
  refine ⟨h.budget, h.sum, fun n g hg => ?_, fun x n hx => ?_, fun x hx => ?_, fun x hx => ?_, hnodup⟩
  · have hown := h.each n g hg
    refine ⟨hown.budget, fun x hx => ?_, fun hlive x hx => ?_, hown.reserved⟩
    · simp only [UdpSockets.close, hget] at hx
      exact hown.mine x hx
    · obtain ⟨hl, ho, hz⟩ := hown.listens hlive x hx
      have hne : x ≠ id := by
        rintro rfl
        simp only [hfree] at hl
        cases hl
      simp only [UdpSockets.close, hget]
      exact ⟨hl, by simpa using ⟨ho, hne⟩, hz⟩
  · simp only [UdpSockets.close, hget] at hx
    exact h.owner x n hx
  · simp only [UdpSockets.close, List.mem_filter, decide_eq_true_eq] at hx
    simp only [UdpSockets.close, hget]
    refine (h.held x hx.1).imp_right fun hin => ?_
    exact (List.mem_cons.1 (hperm.mem_iff.1 hin)).resolve_left hx.2
  · have hne : x ≠ id := by
      rintro rfl
      exact hnot hx
    obtain ⟨ho, hl, hz⟩ := h.drawn x (hperm.mem_iff.2 (List.mem_cons_of_mem _ hx))
    simp only [UdpSockets.close, hget]
    exact ⟨by simpa using ⟨ho, hne⟩, hl, hz⟩

/-- A new negotiation has taken nothing. -/
theorem Reserved.create (offer : Bool) (stun : List Addr) (socket : Nat) (entropy : Bytes) :
    Reserved (Negotiation.create offer stun socket entropy) := by
  constructor <;> simp [Negotiation.create, Negotiation.Punching]

/-- The entropy came: a negotiation listens on the socket. -/
theorem Booked.listenOpen {id : Nat} {os : List Opening} (h : Booked s) (offer : Bool) (stun : List Addr)
    (b : Bytes) (hperm : s.drawn.Perm (id :: os.filterMap Opening.socket)) :
    Booked { s with
      opening := os
      sockets := s.sockets.listen id s.negs.length
      negs := s.negs ++ [Negotiation.create offer stun id b] } := by
  obtain ⟨hnot, hnodup⟩ := List.nodup_cons.1 (hperm.nodup_iff.1 h.apart)
  obtain ⟨hopen, hfree, hz⟩ := h.drawn id (hperm.mem_iff.2 (by simp))
  refine ⟨h.budget, ?_, fun n g hg => ?_, fun x n hx => ?_, fun x hx => ?_, fun x hx => ?_, hnodup⟩
  · have hsum := h.sum
    simpa [UdpSockets.listen, Negotiation.create] using hsum
  · by_cases hn : n < s.negs.length
    · rw [List.getElem?_append_left hn] at hg
      have hown := h.each n g hg
      refine ⟨hown.budget, fun x hx => ?_, fun hlive x hx => ?_, hown.reserved⟩
      · simp only [UdpSockets.listen, OrdMap.get_set] at hx
        split at hx
        · have := Option.some.inj hx
          omega
        · exact hown.mine x hx
      · obtain ⟨hl, ho, hxz⟩ := hown.listens hlive x hx
        have hne : x ≠ id := by
          rintro rfl
          simp only [hfree] at hl
          cases hl
        simp only [UdpSockets.listen, OrdMap.get_set, if_neg hne]
        exact ⟨hl, ho, hxz⟩
    · have hlast : n = s.negs.length := by
        have := (List.getElem?_eq_some_iff.1 hg).1
        simp only [List.length_append, List.length_singleton] at this
        omega
      subst hlast
      have hg' : g = Negotiation.create offer stun id b := by simpa [eq_comm] using hg
      subst hg'
      refine ⟨h.budget, fun x hx => ?_, fun hlive x hx => ?_, Reserved.create offer stun id b⟩
      · simp only [UdpSockets.listen, OrdMap.get_set] at hx
        split at hx
        · rename_i hxid
          exact ⟨rfl, by simp [Negotiation.sockets, Negotiation.create, hxid]⟩
        · exact absurd (h.owner x _ hx) (lt_irrefl _)
      · have hxid : x = id := by simpa [Negotiation.sockets, Negotiation.create] using hx
        subst hxid
        simpa [UdpSockets.listen] using ⟨hopen, hz⟩
  · simp only [UdpSockets.listen, OrdMap.get_set] at hx
    simp only [List.length_append, List.length_singleton]
    split at hx
    · have := Option.some.inj hx
      omega
    · have := h.owner x n hx
      omega
  · simp only [UdpSockets.listen, OrdMap.get_set]
    by_cases hxid : x = id
    · simp [hxid]
    · rw [if_neg hxid]
      exact (h.held x hx).imp_right fun hin => (List.mem_cons.1 (hperm.mem_iff.1 hin)).resolve_left hxid
  · have hne : x ≠ id := by
      rintro rfl
      exact hnot hx
    obtain ⟨ho, hl, hxz⟩ := h.drawn x (hperm.mem_iff.2 (List.mem_cons_of_mem _ hx))
    simp only [UdpSockets.listen, OrdMap.get_set, if_neg hne]
    exact ⟨ho, hl, hxz⟩

theorem Booked.openDrawn (h : Booked s) (o : Opening) (entropy : Option Bytes) :
    Booked (s.openDrawn o entropy) := by
  cases o with
  | binding offer stun => exact h
  | drawing offer stun id =>
    simp only [UdpNode.openDrawn]
    split
    · rename_i ho
      have hperm := drawn_erase ho
      simp only [Opening.socket, Option.toList_some, List.singleton_append] at hperm
      split
      · exact h.dropOpen hperm
      · exact h.listenOpen offer stun _ hperm
    · exact h

theorem Booked.negEvent (h : Booked s) (n : Nat) (e : NegEvent) : Booked (s.negEvent n e) := by
  cases e with
  | start fx =>
    simp only [UdpNode.negEvent]
    refine h.onNeg fun g _ => ?_
    exact Goes.ite (fun _ => .refl _) fun _ => Goes.start fx _
  | close => exact h.onNeg fun g _ => Goes.close _
  | description token fx => exact h.onNeg fun g _ => Goes.description token fx _
  | candidate a fx => exact h.onNeg fun g _ => Goes.candidate a fx _
  | extraBound r =>
    simp only [UdpNode.negEvent]
    split
    · rename_i hbinds
      obtain ⟨g, hg, hpos⟩ := hbinds
      cases r with
      | none => exact h.onNeg fun g _ => (Goes.unbind _).trans (Goes.next _)
      | some id =>
        simp only
        split
        · rename_i hid
          exact h.extraBound hg hpos hid
        · exact h
    · exact h
  | refilled b => exact h.onNeg fun g _ => Goes.refilled b _
  | wake fx =>
    simp only [UdpNode.negEvent]
    refine h.onNeg fun g _ => ?_
    exact Goes.ite (fun _ => Goes.onWake fx _) fun _ => .refl _

/-- No event unbalances the books. -/
theorem Booked.step (h : Booked s) (e : UdpEvent) : Booked (s.step e) := by
  cases e with
  | openCall offer stun =>
    refine h.opens ?_
    rw [List.filterMap_append]
    exact (List.append_nil _).symm ▸ List.Perm.refl _
  | openBound o r => exact h.openBound o r
  | openDrawn o entropy => exact h.openDrawn o entropy
  | neg n e => exact h.negEvent n e
  | packet id p a fx =>
    simp only [UdpNode.step]
    split
    · exact h
    · rename_i n hid
      exact h.onNeg fun g _ => Goes.onPacket p a fx hid
  | elapse ms => exact ⟨h.budget, h.sum, fun n g hg => by
      obtain ⟨hb, hm, hl, hr⟩ := h.each n g hg
      exact ⟨hb, hm, hl, hr⟩, h.owner, h.held, h.drawn, h.apart⟩

theorem booked_create : Booked create := by
  constructor <;> simp [create, drawn, MAX_NODE_BIRTHDAY_SOCKETS]

/-- The books balance after every run. -/
theorem booked_run (evs : List UdpEvent) : Booked (create.run evs) := by
  unfold run
  induction evs using List.reverseRecOn with
  | nil => exact booked_create
  | append_singleton evs e ih =>
    rw [List.foldl_append]
    exact ih.step e

/-- Negotiation `n` lives, and listens on socket `id`. -/
def Owns (s : UdpNode) (n id : Nat) : Prop :=
  ∃ g, s.negs[n]? = some g ∧ g.dead = false ∧ id ∈ g.sockets ∧ s.sockets.listeners.get id = some n

/-- A socket that is listened on has one owner. -/
theorem Booked.owns {id : Nat} (h : Booked s) (hl : s.sockets.listeners.get id ≠ none) :
    ∃! n, s.Owns n id := by
  obtain ⟨n, hn⟩ := Option.ne_none_iff_exists'.1 hl
  have hg := List.getElem?_eq_getElem (h.owner id n hn)
  obtain ⟨hlive, hmem⟩ := (h.each n _ hg).mine id hn
  refine ⟨n, ⟨_, hg, hlive, hmem, hn⟩, ?_⟩
  rintro m ⟨-, -, -, -, hm⟩
  exact Option.some.inj (hm.symm.trans hn)

/-- Those that are dead have returned their share. -/
theorem Booked.live_sum (h : Booked s) :
    ((s.negs.filter fun g => !g.dead).map fun g => g.reservedExtra).sum =
      (s.negs.map fun g => g.reservedExtra).sum := by
  have hdead : ∀ g ∈ s.negs, g.dead = true → g.reservedExtra = 0 := by
    intro g hg hd
    obtain ⟨n, hn⟩ := List.mem_iff_getElem?.1 hg
    exact ((h.each n g hn).reserved.over' (by simp [Negotiation.Punching, hd])).2
  generalize s.negs = gs at hdead
  induction gs with
  | nil => rfl
  | cons g gs ih =>
    have htail := ih fun x hx => hdead x (List.mem_cons_of_mem _ hx)
    rw [List.filter_cons]
    cases hd : g.dead with
    | false => simp [htail]
    | true => simp [htail, hdead g (by simp) hd]

/-- A bind that ends late is closed. -/
theorem Booked.late {id : Nat} (h : Booked s) (hg : s.negs[n]? = some g) (hbinds : 0 < g.binds)
    (hp : ¬g.Punching) (hid : s.fresh id = true) :
    id ∉ (s.step (.neg n (.extraBound (some id)))).sockets.opened := by
  obtain ⟨hz, hnew, hfree, -⟩ := h.fresh hid
  obtain ⟨-, -, -, -, hthis⟩ := (h.bound hg id).extraBound hbinds hz hfree (by simp [UdpNode.bound])
  have hbind : ∃ g, s.negs[n]? = some g ∧ 0 < g.binds := ⟨g, hg, hbinds⟩
  simp only [UdpNode.step, UdpNode.negEvent, if_pos hbind, if_pos hid, onNeg_bound hg]
  rcases hthis with ⟨hp', -⟩ | ⟨-, -, ho⟩
  · exact absurd hp' hp
  · exact ho

/-- The socket of an `open` is an `open`'s no longer once its draw ends. -/
theorem Booked.drawn_ends {o : Opening} {id : Nat} (h : Booked s) (ho : o ∈ s.opening)
    (hid : o.socket = some id) (entropy : Option Bytes) :
    id ∉ (s.step (.openDrawn o entropy)).drawn := by
  have hperm := drawn_erase ho
  rw [hid] at hperm
  have hnot := (List.nodup_cons.1 (hperm.nodup_iff.1 h.apart)).1
  cases o with
  | binding offer stun => cases hid
  | drawing offer stun x =>
    simp only [UdpNode.step, UdpNode.openDrawn, if_pos ho]
    split
    · exact hnot
    · exact hnot

/-- The birthday punch over any run: what the live negotiations have taken and the budget make
the node's; none takes twice, none holds or asks for more than it took, and one that has a path
or is dead holds none and closes what is bound late; and every open socket is listened on by
one live negotiation, or is that of an `open` at its entropy, after which it is one or closed. -/
theorem birthday_booked (evs : List UdpEvent) :
    let s := create.run evs
    0 ≤ s.sockets.birthdayBudget ∧
    s.sockets.birthdayBudget + ((s.negs.filter fun g => !g.dead).map fun g => g.reservedExtra).sum =
      MAX_NODE_BIRTHDAY_SOCKETS ∧
    (∀ g ∈ s.negs, g.reserves ≤ 1 ∧
      (g.Punching → ((g.extra.getD []).length : Int) + g.binds ≤ g.reservedExtra) ∧
      (¬g.Punching → g.extra.getD [] = [])) ∧
    (∀ n g id, s.negs[n]? = some g → 0 < g.binds → ¬g.Punching → s.fresh id = true →
      id ∉ (s.step (.neg n (.extraBound (some id)))).sockets.opened) ∧
    (∀ id ∈ s.sockets.opened, (∃! n, s.Owns n id) ∨ id ∈ s.drawn) ∧
    ∀ o ∈ s.opening, ∀ id, o.socket = some id → ∀ entropy,
      let t := s.step (.openDrawn o entropy)
      id ∉ t.sockets.opened ∨ ∃! n, t.Owns n id := by
  intro s
  have h : Booked s := booked_run evs
  refine ⟨h.budget, ?_, fun g hg => ?_, fun n g id hg hb hp hid => h.late hg hb hp hid,
    fun id hid => (h.held id hid).imp_left h.owns, fun o ho id hid entropy => ?_⟩
  · rw [h.live_sum]
    exact h.sum
  · obtain ⟨n, hn⟩ := List.mem_iff_getElem?.1 hg
    have hr := (h.each n g hn).reserved
    refine ⟨hr.once, fun hp => ?_, fun hp => (hr.over' hp).1⟩
    obtain ⟨hroom, hleft⟩ := hr.room hp
    simp only at hroom hleft
    omega
  · have ht : Booked (s.step (.openDrawn o entropy)) := h.step _
    by_cases hopen : id ∈ (s.step (.openDrawn o entropy)).sockets.opened
    · exact .inr (ht.owns ((ht.held id hopen).resolve_right (h.drawn_ends ho hid entropy)))
    · exact .inl hopen

/-! ### A socket nobody listens on, and binds nothing is kept for -/

def quiet : Fx := ⟨false, fun _ => 0⟩

def stunServer : Addr := ⟨"192.0.2.1", 3478⟩

/-- A server's answer: this end is seen at `port`. -/
def stunAnswer (port : Nat) : Bytes :=
  writeU16BE STUN_BINDING_SUCCESS ++ writeU16BE 12 ++ writeU32BE STUN_COOKIE ++ List.replicate 12 0 ++
    writeU16BE STUN_XOR_MAPPED_ADDRESS ++ writeU16BE 8 ++ [0, 1] ++ writeU16BE port ++ [10, 0, 0, 1]

/-- An end seen at two ports punches for a second, and then is closed. -/
def hardEnd : List UdpEvent :=
  [.openCall true [stunServer, stunServer], .openBound (.binding true [stunServer, stunServer]) (some 5),
    .openDrawn (.drawing true [stunServer, stunServer] 5) (some (List.replicate 104 0)),
    .neg 0 (.start quiet), .packet 5 (stunAnswer 1) stunServer quiet, .packet 5 (stunAnswer 2) stunServer quiet,
    .neg 0 (.description (some (List.replicate 8 0)) quiet),
    .neg 0 (.candidate (some ⟨"10.0.0.9", 4000⟩) quiet)] ++
  (List.replicate 19 [UdpEvent.elapse 50, .neg 0 (.wake quiet)]).flatten ++ [.neg 0 .close]

/-- While an `open` draws its entropy its socket is bound and nobody's; and a negotiation that
closes without a path returns its share with binds in flight. -/
theorem drawing_unowned :
    (¬∀ evs : List UdpEvent, ∀ id ∈ (create.run evs).sockets.opened, ∃! n, (create.run evs).Owns n id) ∧
    ¬∀ evs : List UdpEvent, ∀ g ∈ (create.run evs).negs, g.path = none →
      ((g.extra.getD []).length : Int) + g.binds ≤ g.reservedExtra := by
  constructor
  · intro h
    have hnegs : (create.run [.openCall true [], .openBound (.binding true []) (some 5)]).negs = [] := by rfl
    obtain ⟨n, ⟨g, hg, -⟩, -⟩ := h [.openCall true [], .openBound (.binding true []) (some 5)] 5 (by decide)
    simp [hnegs] at hg
  · intro h
    have hend : ((create.run hardEnd).negs.map fun g => (g.path, g.binds, g.reservedExtra)) = [(none, 8, 0)] := by
      decide +kernel
    have hall := h hardEnd
    generalize (create.run hardEnd).negs = negs at hend hall
    obtain ⟨g, rfl, hg⟩ := List.map_eq_singleton_iff.1 hend
    obtain ⟨hpath, hbinds, hres⟩ : g.path = none ∧ g.binds = 8 ∧ g.reservedExtra = 0 := by simpa using hg
    have hle := hall g (by simp) hpath
    rw [hbinds, hres] at hle
    omega

end UdpNode

end SeedTransport
