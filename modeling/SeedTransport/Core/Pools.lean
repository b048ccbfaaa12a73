import SeedTransport.Core.Router

set_option autoImplicit false

namespace SeedTransport

/-! The router's pools between calls. A link that ends inside a call leaves its pool there
and then, so the invariant has to stand in the middle of a call too, up to the one link
whose authentication is under way. -/

namespace Pool

theorem insertIdx_append_length (i : Nat) (ds rs : List Nat) :
    (ds ++ rs).insertIdx ds.length i = ds ++ i :: rs := by
  induction ds with
  | nil => rfl
  | cons d ds ih => simp [List.insertIdx_succ_cons, ih]

/-- The direct links come first and are counted. -/
def Split (relayed : Nat → Bool) (p : Pool) : Prop :=
  ∃ ds rs, p.links = ds ++ rs ∧ p.direct = ds.length ∧ (∀ i ∈ ds, relayed i = false) ∧
    ∀ i ∈ rs, relayed i = true

variable {relayed : Nat → Bool} {p : Pool}

theorem Split.list (h : p.Split relayed) (i : Nat) : (p.list (relayed i) i).Split relayed := by
  obtain ⟨ds, rs, hl, hd, hds, hrs⟩ := h
  unfold Pool.list
  split
  · rename_i hr
    refine ⟨ds, rs ++ [i], by simp [hl], hd, hds, fun j hj => ?_⟩
    rcases List.mem_append.1 hj with hj | hj
    · exact hrs j hj
    · rw [List.mem_singleton.1 hj]
      exact hr
  · rename_i hr
    refine ⟨ds ++ [i], rs, ?_, by simp [hd], fun j hj => ?_, hrs⟩
    · simp [hl, hd, insertIdx_append_length]
    · rcases List.mem_append.1 hj with hj | hj
      · exact hds j hj
      · rw [List.mem_singleton.1 hj]
        simpa using hr

theorem Split.unlist (h : p.Split relayed) (i : Nat) :
    (p.unlist (relayed i) i).Split relayed := by
  unfold Pool.unlist
  split
  · rename_i hi
    obtain ⟨ds, rs, hl, hd, hds, hrs⟩ := h
    rw [hl] at hi
    cases hr : relayed i with
    | true =>
      have hnot : i ∉ ds := fun hj => by simp [hds i hj] at hr
      refine ⟨ds, rs.erase i, ?_, hd, hds, fun j hj => hrs j (List.mem_of_mem_erase hj)⟩
      simp only [hl]
      exact List.erase_append_right _ hnot
    | false =>
      have hin : i ∈ ds := by
        rcases List.mem_append.1 hi with hj | hj
        · exact hj
        · simp [hrs i hj] at hr
      refine ⟨ds.erase i, rs, ?_, ?_, fun j hj => hds j (List.mem_of_mem_erase hj), hrs⟩
      · simp only [hl]
        exact List.erase_append_left _ hin
      · simp [hd, List.length_erase_of_mem hin]
  · exact h

theorem list_perm (h : p.Split relayed) (r : Bool) (i : Nat) :
    (p.list r i).links.Perm (i :: p.links) := by
  obtain ⟨ds, rs, hl, hd, -⟩ := h
  unfold Pool.list
  split
  · exact List.perm_append_singleton i p.links
  · exact List.perm_insertIdx _ _ (by simp [hl, hd])

@[simp] theorem list_held (p : Pool) (r : Bool) (i : Nat) : (p.list r i).held = p.held := by
  unfold Pool.list
  split <;> rfl

@[simp] theorem unlist_held (p : Pool) (r : Bool) (i : Nat) : (p.unlist r i).held = p.held := by
  unfold Pool.unlist
  split <;> rfl

@[simp] theorem unlist_links (p : Pool) (r : Bool) (i : Nat) :
    (p.unlist r i).links = p.links.erase i := by
  unfold Pool.unlist
  split
  · rfl
  · rename_i hi
    exact (List.erase_of_not_mem hi).symm

theorem Split.hold (h : p.Split relayed) (i : Nat) : (p.hold i).Split relayed := h

@[simp] theorem hold_links (p : Pool) (i : Nat) : (p.hold i).links = p.links := rfl

@[simp] theorem hold_held (p : Pool) (i : Nat) : (p.hold i).held = p.held ++ [i] := rfl

@[simp] theorem hold_direct (p : Pool) (i : Nat) : (p.hold i).direct = p.direct := rfl

/-- Held links are routed again, all of them. -/
theorem relist (relayed : Nat → Bool) (held : List Nat) (h : p.Split relayed) :
    (held.foldl (fun p l => p.list (relayed l) l) p).Split relayed ∧
      (held.foldl (fun p l => p.list (relayed l) l) p).links.Perm (held ++ p.links) ∧
      (held.foldl (fun p l => p.list (relayed l) l) p).held = p.held := by
  induction held generalizing p with
  | nil => exact ⟨h, .refl _, rfl⟩
  | cons l held ih =>
    obtain ⟨h1, h2, h3⟩ := ih (h.list l)
    refine ⟨h1, h2.trans ?_, h3.trans (list_held p _ l)⟩
    exact ((list_perm h _ l).append_left held).trans List.perm_middle

end Pool

/-- What stays of a link over calls; closed, it stays closed. -/
structure Conn.Keeps (k k' : Conn) : Prop where
  relayed : k'.relayed = k.relayed
  dialedPeerId : k'.dialedPeerId = k.dialedPeerId
  authed : k'.authed = k.authed
  peerId : k'.peerId = k.peerId
  closed : k.closed = true → k'.closed = true

theorem Conn.Keeps.refl (k : Conn) : k.Keeps k := ⟨rfl, rfl, rfl, rfl, id⟩

theorem Conn.Keeps.trans {k k' k'' : Conn} (h : k.Keeps k') (h' : k'.Keeps k'') : k.Keeps k'' where
  relayed := h'.relayed.trans h.relayed
  dialedPeerId := h'.dialedPeerId.trans h.dialedPeerId
  authed := h'.authed.trans h.authed
  peerId := h'.peerId.trans h.peerId
  closed hc := h'.closed (h.closed hc)

/-- What the router reads of a link. -/
def Conn.face (k : Conn) : Bool × Option Bytes × Bool × Option Bytes × Bool :=
  (k.relayed, k.dialedPeerId, k.authed, k.peerId, k.closed)

namespace Core

/-- A pool of `peer`: its links in order and every one of them open and the peer's. -/
structure Fits (c : Core) (peer : Bytes) (p : Pool) : Prop where
  split : p.Split c.relayed
  nodup : (p.links ++ p.held).Nodup
  mine : ∀ i ∈ p.links ++ p.held, ∃ k : Conn, c.conns[i]? = some k ∧ k.closed = false ∧
    k.peerId = some peer

/-- The pools are in order, but for link `x`, which is in none. -/
structure Sound (x : Option Nat) (c : Core) : Prop where
  pools : ∀ peer p, c.pools.get peer = some p → p.links ≠ [] ∧ c.Fits peer p
  placed : ∀ (i : Nat) (k : Conn) (peer : Bytes), some i ≠ x → c.conns[i]? = some k →
    k.closed = false → k.peerId = some peer →
    ∃ p, c.pools.get peer = some p ∧ i ∈ p.links ++ p.held
  apart : ∀ i, x = some i → ∀ peer p, c.pools.get peer = some p → i ∉ p.links ++ p.held
  known : ∀ (i : Nat) (k : Conn), c.conns[i]? = some k → (k.authed = true ↔ k.peerId ≠ none)

/-- An authenticated link has no frames waiting, but for link `y` while it is open. -/
def Drained (y : Option Nat) (c : Core) : Prop :=
  ∀ (i : Nat) (k : Conn), c.conns[i]? = some k → k.authed = true →
    some i ≠ y ∨ k.closed = true → k.queue = []

/-- `c'` is `c` after some calls. -/
structure Grows (c c' : Core) : Prop where
  own : c'.own = c.own
  length : c'.conns.length = c.conns.length
  conn : ∀ (i : Nat) (k : Conn), c.conns[i]? = some k → ∃ k', c'.conns[i]? = some k' ∧ k.Keeps k'

theorem Grows.refl (c : Core) : Grows c c :=
  ⟨rfl, rfl, fun _ k hk => ⟨k, hk, .refl k⟩⟩

theorem Grows.trans {c c' c'' : Core} (h : Grows c c') (h' : Grows c' c'') : Grows c c'' where
  own := h'.own.trans h.own
  length := h'.length.trans h.length
  conn i k hk := by
    obtain ⟨k1, hk1, h1⟩ := h.conn i k hk
    obtain ⟨k2, hk2, h2⟩ := h'.conn i k1 hk1
    exact ⟨k2, hk2, h1.trans h2⟩

theorem Grows.relayed {c c' : Core} (h : Grows c c') : c'.relayed = c.relayed := by
  funext i
  unfold Core.relayed
  cases hk : c.conns[i]? with
  | none =>
    have hnone : c'.conns[i]? = none := by
      rw [List.getElem?_eq_none_iff] at hk ⊢
      rw [h.length]
      exact hk
    rw [hnone]
  | some k =>
    obtain ⟨k', hk', hkeep⟩ := h.conn i k hk
    simp [hk', hkeep.relayed]

theorem Grows.relayed_apply {c c' : Core} (h : Grows c c') (i : Nat) :
    c'.relayed i = c.relayed i := congrFun h.relayed i

theorem getElem?_setConn (i : Nat) (f : Conn → Conn) (c : Core) (j : Nat) :
    (c.setConn i f).conns[j]? = if i = j then c.conns[j]?.map f else c.conns[j]? := by
  simp only [setConn, List.getElem?_modify]
  split <;> simp_all

theorem setConn_grows (i : Nat) (f : Conn → Conn) (c : Core) (hf : ∀ k : Conn, k.Keeps (f k)) :
    Grows c (c.setConn i f) where
  own := rfl
  length := by simp [setConn]
  conn j k hk := by
    rw [getElem?_setConn, hk]
    split
    · exact ⟨f k, rfl, hf k⟩
    · exact ⟨k, rfl, .refl k⟩

/-- A change the router does not see keeps the pools in order. -/
theorem Sound.setConn {x : Option Nat} {c : Core} (h : c.Sound x) (i : Nat) (f : Conn → Conn)
    (hf : ∀ k, (f k).face = k.face) : (c.setConn i f).Sound x := by
  have hface : ∀ k, (f k).relayed = k.relayed ∧ (f k).dialedPeerId = k.dialedPeerId ∧
      (f k).authed = k.authed ∧ (f k).peerId = k.peerId ∧ (f k).closed = k.closed := by
    intro k
    simpa [Conn.face] using hf k
  have hkeep : ∀ k : Conn, k.Keeps (f k) := by
    intro k
    obtain ⟨h1, h2, h3, h4, h5⟩ := hface k
    exact ⟨h1, h2, h3, h4, fun hc => h5.trans hc⟩
  have hget : ∀ (j : Nat) (k : Conn), (c.setConn i f).conns[j]? = some k →
      ∃ k', c.conns[j]? = some k' ∧ k.authed = k'.authed ∧ k.peerId = k'.peerId ∧
        k.closed = k'.closed := by
    intro j k hk
    rw [getElem?_setConn] at hk
    split at hk
    · obtain ⟨k', hk', rfl⟩ := Option.map_eq_some_iff.1 hk
      obtain ⟨-, -, h3, h4, h5⟩ := hface k'
      exact ⟨k', hk', h3, h4, h5⟩
    · exact ⟨k, hk, rfl, rfl, rfl⟩
  constructor
  · intro peer p hp
    obtain ⟨hne, hfit⟩ := h.pools peer p hp
    refine ⟨hne, ?_, hfit.nodup, fun j hj => ?_⟩
    · rw [(setConn_grows i f c hkeep).relayed]
      exact hfit.split
    · obtain ⟨k, hk, hc, hpeer⟩ := hfit.mine j hj
      rw [getElem?_setConn, hk]
      split
      · obtain ⟨-, -, -, h4, h5⟩ := hface k
        exact ⟨f k, rfl, h5.trans hc, h4.trans hpeer⟩
      · exact ⟨k, rfl, hc, hpeer⟩
  · intro j k peer hx hk hc hpeer
    obtain ⟨k', hk', -, h4, h5⟩ := hget j k hk
    exact h.placed j k' peer hx hk' (h5.symm.trans hc) (h4.symm.trans hpeer)
  · exact h.apart
  · intro j k hk
    obtain ⟨k', hk', h3, h4, -⟩ := hget j k hk
    rw [h3, h4]
    exact h.known j k' hk'

theorem Sound.congr {x : Option Nat} {c c' : Core} (h : c.Sound x) (hp : c'.pools = c.pools)
    (hc : c'.conns = c.conns) : c'.Sound x := by
  have hr : c'.relayed = c.relayed := by
    funext i
    simp [Core.relayed, hc]
  constructor
  · rw [hp]
    intro peer p hget
    obtain ⟨hne, hfit⟩ := h.pools peer p hget
    exact ⟨hne, by rw [hr]; exact hfit.split, hfit.nodup, by rw [hc]; exact hfit.mine⟩
  · rw [hp, hc]
    exact h.placed
  · rw [hp]
    exact h.apart
  · rw [hc]
    exact h.known

/-- Only what the pools hold counts, not how the map got there. -/
theorem Sound.repool {x : Option Nat} {c : Core} {m : OrdMap Bytes Pool} (h : c.Sound x)
    (hm : ∀ peer, m.get peer = c.pools.get peer) : ({ c with pools := m } : Core).Sound x where
  pools peer p hp := by
    obtain ⟨hne, hfit⟩ := h.pools peer p ((hm peer).symm.trans hp)
    exact ⟨hne, hfit.split, hfit.nodup, hfit.mine⟩
  placed i k peer hx hk hc hpeer := by
    obtain ⟨p, hp, hi⟩ := h.placed i k peer hx hk hc hpeer
    exact ⟨p, (hm peer).trans hp, hi⟩
  apart i hx peer p hp := h.apart i hx peer p ((hm peer).symm.trans hp)
  known := h.known

@[simp] theorem dropConnecting_pools (i : Nat) (c : Core) :
    (c.dropConnecting i).pools = c.pools := by
  unfold dropConnecting
  repeat' split
  all_goals rfl

@[simp] theorem dropConnecting_conns (i : Nat) (c : Core) :
    (c.dropConnecting i).conns = c.conns := by
  unfold dropConnecting
  repeat' split
  all_goals rfl

@[simp] theorem dropConnecting_own (i : Nat) (c : Core) : (c.dropConnecting i).own = c.own := by
  unfold dropConnecting
  repeat' split
  all_goals rfl

@[simp] theorem remove_own (i : Nat) (c : Core) : (c.remove i).own = c.own := by
  unfold Core.remove
  simp only
  repeat' split
  all_goals rfl

/-- `peer`'s pool `p` without link `i`: what is left of it routes, or there is none. -/
def Without (relayed : Nat → Bool) (i : Nat) (p : Pool) : Option Pool → Prop
  | none => (p.links ++ p.held).erase i = []
  | some p' => p'.links ≠ [] ∧ p'.Split relayed ∧
      (p'.links ++ p'.held).Perm ((p.links ++ p.held).erase i)

/-- A link that closes may leave its pool. -/
theorem Sound.without {x : Option Nat} {c : Core} (h : c.Sound x) {i : Nat} {k : Conn}
    {peer : Bytes} {p : Pool} {m : OrdMap Bytes Pool} (f : Conn → Conn)
    (hf : ∀ k, k.Keeps (f k) ∧ (f k).closed = true) (hk : c.conns[i]? = some k)
    (hpeer : k.peerId = some peer) (hp : c.pools.get peer = some p)
    (hother : ∀ peer', peer' ≠ peer → m.get peer' = c.pools.get peer')
    (hm : Without c.relayed i p (m.get peer)) :
    Sound x { c.setConn i f with pools := m } := by
  have hr : ({ c.setConn i f with pools := m } : Core).relayed = c.relayed :=
    (setConn_grows i f c fun k => (hf k).1).relayed
  have hfit := (h.pools peer p hp).2
  have hget : ∀ (j : Nat), ({ c.setConn i f with pools := m } : Core).conns[j]? =
      if i = j then c.conns[j]?.map f else c.conns[j]? := getElem?_setConn i f c
  -- A link of another pool is another link.
  have hapart : ∀ peer' p', peer' ≠ peer → c.pools.get peer' = some p' →
      i ∉ p'.links ++ p'.held := by
    intro peer' p' hne hp' hi
    obtain ⟨k', hk', -, hpeer'⟩ := (h.pools peer' p' hp').2.mine i hi
    rw [hk] at hk'
    cases hk'
    rw [hpeer] at hpeer'
    exact hne (Option.some.inj hpeer').symm
  constructor
  · intro peer' p' hp'
    by_cases hpp : peer' = peer
    · subst hpp
      rw [hp'] at hm
      obtain ⟨hne, hsplit, hperm⟩ := hm
      refine ⟨hne, by rw [hr]; exact hsplit, hperm.nodup_iff.2 (hfit.nodup.erase i), fun j hj => ?_⟩
      have hj' := (hfit.nodup.mem_erase_iff).1 (hperm.mem_iff.1 hj)
      obtain ⟨k', hk', hc', hpeer'⟩ := hfit.mine j hj'.2
      exact ⟨k', by rw [hget, if_neg (Ne.symm hj'.1), hk'], hc', hpeer'⟩
    · have hp'' := hp'
      simp only [hother peer' hpp] at hp''
      obtain ⟨hne, hfit'⟩ := h.pools peer' p' hp''
      refine ⟨hne, by rw [hr]; exact hfit'.split, hfit'.nodup, fun j hj => ?_⟩
      obtain ⟨k', hk', hrest⟩ := hfit'.mine j hj
      have hij : i ≠ j := fun hij => hapart peer' p' hpp hp'' (hij ▸ hj)
      exact ⟨k', by rw [hget, if_neg hij, hk'], hrest⟩
  · intro j k' peer' hx hk' hc' hpeer'
    rw [hget] at hk'
    split at hk'
    · obtain ⟨k0, -, rfl⟩ := Option.map_eq_some_iff.1 hk'
      rw [(hf k0).2] at hc'
      cases hc'
    · rename_i hij
      obtain ⟨q, hq, hj⟩ := h.placed j k' peer' hx hk' hc' hpeer'
      by_cases hpp : peer' = peer
      · subst hpp
        rw [hp] at hq
        cases hq
        have hje : j ∈ (p.links ++ p.held).erase i :=
          (hfit.nodup.mem_erase_iff).2 ⟨Ne.symm hij, hj⟩
        cases hmp : m.get peer' with
        | none =>
          rw [hmp] at hm
          rw [show (p.links ++ p.held).erase i = [] from hm] at hje
          simp at hje
        | some p' =>
          rw [hmp] at hm
          exact ⟨p', rfl, hm.2.2.mem_iff.2 hje⟩
      · exact ⟨q, (hother peer' hpp).trans hq, hj⟩
  · intro j hx peer' p' hp' hj
    by_cases hpp : peer' = peer
    · subst hpp
      rw [hp'] at hm
      exact h.apart j hx peer' p hp (List.mem_of_mem_erase (hm.2.2.mem_iff.1 hj))
    · rw [hother peer' hpp] at hp'
      exact h.apart j hx peer' p' hp' hj
  · intro j k' hk'
    rw [hget] at hk'
    split at hk'
    · obtain ⟨k0, hk0, rfl⟩ := Option.map_eq_some_iff.1 hk'
      rw [(hf k0).1.authed, (hf k0).1.peerId]
      exact h.known j k0 hk0
    · exact h.known j k' hk'

theorem remove_held {c : Core} {i : Nat} {k : Conn} {peer : Bytes} {p : Pool}
    (hk : c.conns[i]? = some k) (hpeer : k.peerId = some peer) (hp : c.pools.get peer = some p)
    (hi : i ∈ p.held) : c.remove i = c.setPool peer { p with held := p.held.erase i } := by
  simp [Core.remove, hk, hpeer, hp, hi]

/-- What `remove` does to the pools. -/
theorem remove_spec {c : Core} {i : Nat} {k : Conn} {peer : Bytes} {p : Pool}
    (hk : c.conns[i]? = some k) (hpeer : k.peerId = some peer) (hp : c.pools.get peer = some p)
    (hne : p.links ≠ []) (hsplit : p.Split c.relayed) (hnodup : (p.links ++ p.held).Nodup) :
    (c.remove i).conns = c.conns ∧
      (∀ peer', peer' ≠ peer → (c.remove i).pools.get peer' = c.pools.get peer') ∧
      Without c.relayed i p ((c.remove i).pools.get peer) := by
  unfold Core.remove
  simp only [hk, Option.bind_some, hpeer, hp]
  by_cases hheld : i ∈ p.held
  · have hnot : i ∉ p.links := fun hi => (List.nodup_append.1 hnodup).2.2 i hi i hheld rfl
    rw [if_pos hheld]
    refine ⟨rfl, fun peer' hpp => by simp [setPool, OrdMap.get_set, hpp], ?_⟩
    simp only [setPool, OrdMap.get_set_self, Without]
    exact ⟨hne, hsplit, by rw [List.erase_append_right _ hnot]⟩
  · rw [if_neg hheld]
    by_cases hlinks : i ∈ p.links
    · rw [if_neg (by simpa using hlinks)]
      have hsplit' := hsplit.unlist i
      by_cases hleft : (p.unlist (c.relayed i) i).links = []
      · rw [if_neg (not_not.2 hleft)]
        simp only [Pool.unlist_links] at hleft
        simp only [Pool.unlist_held]
        by_cases hh : p.held = []
        · rw [if_neg (by simpa using hh)]
          refine ⟨rfl, fun peer' hpp => by simp [peerDown, OrdMap.get_delete, hpp], ?_⟩
          simp only [peerDown, OrdMap.get_delete, if_true, Without, hh, List.append_nil]
          exact hleft
        · rw [if_pos hh]
          have hempty : Pool.Split c.relayed { p.unlist (c.relayed i) i with held := [] } := hsplit'
          obtain ⟨h1, h2, h3⟩ := Pool.relist c.relayed p.held hempty
          refine ⟨rfl, fun peer' hpp => by simp [setPool, OrdMap.get_set, hpp], ?_⟩
          simp only [setPool, OrdMap.get_set_self, Without]
          refine ⟨fun hnil => ?_, h1, ?_⟩
          · rw [hnil] at h2
            simp [hh] at h2
          · rw [h3, List.append_nil, List.erase_append_left _ hlinks, hleft]
            simpa [hleft] using h2
      · rw [if_pos hleft]
        refine ⟨rfl, fun peer' hpp => by simp [setPool, OrdMap.get_set, hpp], ?_⟩
        simp only [setPool, OrdMap.get_set_self, Without]
        exact ⟨hleft, hsplit', by simp [List.erase_append_left _ hlinks]⟩
    · rw [if_pos hlinks]
      refine ⟨rfl, fun _ _ => rfl, ?_⟩
      rw [hp]
      exact ⟨hne, hsplit, by rw [List.erase_of_not_mem (by simp [hlinks, hheld])]⟩

theorem shut_keeps (farewell : Bool) (k : Conn) : k.Keeps (k.shut farewell) :=
  ⟨rfl, rfl, rfl, rfl, fun _ => rfl⟩

/-- A closed link with no peer was in no pool. -/
theorem Sound.shutStranger {x : Option Nat} {c : Core} (h : c.Sound x) {i : Nat} {k : Conn}
    (farewell : Bool) (hk : c.conns[i]? = some k)
    (hno : ∀ peer p, c.pools.get peer = some p → i ∉ p.links ++ p.held) :
    (c.setConn i (Conn.shut farewell)).Sound x := by
  have hr := (setConn_grows i (Conn.shut farewell) c (shut_keeps farewell)).relayed
  constructor
  · intro peer p hp
    obtain ⟨hne, hfit⟩ := h.pools peer p hp
    refine ⟨hne, by rw [hr]; exact hfit.split, hfit.nodup, fun j hj => ?_⟩
    obtain ⟨k', hk', hrest⟩ := hfit.mine j hj
    have hij : i ≠ j := fun hij => hno peer p hp (hij ▸ hj)
    exact ⟨k', by rw [getElem?_setConn, if_neg hij, hk'], hrest⟩
  · intro j k' peer hx hk' hc' hpeer'
    rw [getElem?_setConn] at hk'
    split at hk'
    · obtain ⟨k0, -, rfl⟩ := Option.map_eq_some_iff.1 hk'
      simp [Conn.shut] at hc'
    · exact h.placed j k' peer hx hk' hc' hpeer'
  · exact h.apart
  · intro j k' hk'
    rw [getElem?_setConn] at hk'
    split at hk'
    · obtain ⟨k0, hk0, rfl⟩ := Option.map_eq_some_iff.1 hk'
      exact h.known j k0 hk0
    · exact h.known j k' hk'

/-- A link that closes leaves its pool. -/
theorem Sound.leave {x : Option Nat} {c : Core} (h : c.Sound x) {i : Nat} {k : Conn}
    (farewell : Bool) (hk : c.conns[i]? = some k) :
    (((c.setConn i (Conn.shut farewell)).dropConnecting i).remove i).Sound x ∧
      (((c.setConn i (Conn.shut farewell)).dropConnecting i).remove i).conns =
        (c.setConn i (Conn.shut farewell)).conns := by
  have hk1 : ((c.setConn i (Conn.shut farewell)).dropConnecting i).conns[i]? =
      some (k.shut farewell) := by
    rw [dropConnecting_conns, getElem?_setConn, if_pos rfl, hk]
    rfl
  have hpools : ((c.setConn i (Conn.shut farewell)).dropConnecting i).pools = c.pools :=
    dropConnecting_pools _ _
  have hr : ((c.setConn i (Conn.shut farewell)).dropConnecting i).relayed = c.relayed := by
    rw [← (setConn_grows i (Conn.shut farewell) c (shut_keeps farewell)).relayed]
    funext j
    simp [Core.relayed]
  cases hpeer : k.peerId with
  | none =>
    have hsame : ((c.setConn i (Conn.shut farewell)).dropConnecting i).remove i =
        (c.setConn i (Conn.shut farewell)).dropConnecting i := by
      simp only [Core.remove, hk1, Option.bind_some]
      rw [show (k.shut farewell).peerId = none from hpeer]
    rw [hsame]
    refine ⟨(h.shutStranger farewell hk fun peer p hp hi => ?_).congr (by simp) (by simp), by simp⟩
    obtain ⟨k', hk', -, hpeer'⟩ := (h.pools peer p hp).2.mine i hi
    rw [hk] at hk'
    cases hk'
    rw [hpeer] at hpeer'
    cases hpeer'
  | some peer =>
    have hpeer1 : (k.shut farewell).peerId = some peer := hpeer
    cases hp : c.pools.get peer with
    | none =>
      have hsame : ((c.setConn i (Conn.shut farewell)).dropConnecting i).remove i =
          (c.setConn i (Conn.shut farewell)).dropConnecting i := by
        simp only [Core.remove, hk1, Option.bind_some, hpeer1, hpools, hp]
      rw [hsame]
      refine ⟨(h.shutStranger farewell hk fun peer' p' hp' hi => ?_).congr (by simp) (by simp),
        by simp⟩
      obtain ⟨k', hk', -, hpeer'⟩ := (h.pools peer' p' hp').2.mine i hi
      rw [hk] at hk'
      cases hk'
      rw [hpeer] at hpeer'
      cases hpeer'
      rw [hp] at hp'
      cases hp'
    | some p =>
      obtain ⟨hne, hfit⟩ := h.pools peer p hp
      obtain ⟨hconns, hother, hwithout⟩ := remove_spec hk1 hpeer1 (by rw [hpools]; exact hp) hne
        (by rw [hr]; exact hfit.split) hfit.nodup
      rw [hr] at hwithout
      simp only [hpools] at hother
      rw [hconns, dropConnecting_conns]
      refine ⟨?_, rfl⟩
      have hs := h.without (Conn.shut farewell) (fun k => ⟨shut_keeps farewell k, rfl⟩) hk hpeer hp
        hother hwithout
      exact hs.congr rfl (by rw [hconns, dropConnecting_conns])

/-! ### Calls keep the pools -/

/-- The invariant in the middle of a call: `x` is in no pool yet, `y` has its queue still. -/
structure Inv (x y : Option Nat) (c : Core) : Prop where
  sound : c.Sound x
  drained : c.Drained y

/-- A way to end a link that keeps the invariant. -/
def Closes (x y : Option Nat) (close : Nat → Core → Core) : Prop :=
  ∀ i c, c.Inv x y → (close i c).Inv x y ∧ Grows c (close i c)

section Calls

variable {x y : Option Nat} {c : Core} {close : Nat → Core → Core}

theorem Inv.congr {c' : Core} (h : c.Inv x y) (hp : c'.pools = c.pools)
    (hc : c'.conns = c.conns) : c'.Inv x y where
  sound := h.sound.congr hp hc
  drained := by
    unfold Drained
    rw [hc]
    exact h.drained

theorem grows_of_eq {c' : Core} (ho : c'.own = c.own) (hc : c'.conns = c.conns) : Grows c c' where
  own := ho
  length := by rw [hc]
  conn j k hk := ⟨k, by rw [hc]; exact hk, .refl k⟩

/-- A change to one link that the router does not see. -/
theorem Inv.setConn (h : c.Inv x y) (i : Nat) (f : Conn → Conn) (hf : ∀ k, (f k).face = k.face)
    (hq : ∀ k, c.conns[i]? = some k → k.authed = true → k.queue = [] → (f k).queue = []) :
    (c.setConn i f).Inv x y ∧ Grows c (c.setConn i f) := by
  have hface : ∀ k, (f k).relayed = k.relayed ∧ (f k).dialedPeerId = k.dialedPeerId ∧
      (f k).authed = k.authed ∧ (f k).peerId = k.peerId ∧ (f k).closed = k.closed := by
    intro k
    simpa [Conn.face] using hf k
  refine ⟨⟨h.sound.setConn i f hf, fun j k hk ha hyc => ?_⟩, setConn_grows i f c fun k => ?_⟩
  · rw [getElem?_setConn] at hk
    split at hk
    · rename_i hij
      subst hij
      obtain ⟨k0, hk0, rfl⟩ := Option.map_eq_some_iff.1 hk
      obtain ⟨-, -, h3, -, h5⟩ := hface k0
      rw [h3] at ha
      rw [h5] at hyc
      exact hq k0 hk0 ha (h.drained i k0 hk0 ha hyc)
    · exact h.drained j k hk ha hyc
  · obtain ⟨h1, h2, h3, h4, h5⟩ := hface k
    exact ⟨h1, h2, h3, h4, fun hc => h5.trans hc⟩

theorem sendLink_keeps (hclose : Closes x y close) (h : c.Inv x y) (i : Nat) (frame : Bytes) :
    (c.sendLink close i frame).Inv x y ∧ Grows c (c.sendLink close i frame) := by
  unfold Core.sendLink
  split
  · exact ⟨h, .refl c⟩
  · rename_i k hk
    split
    · exact ⟨h, .refl c⟩
    · split
      · split
        · exact hclose i c h
        · exact h.setConn i _ (fun _ => rfl) fun _ _ _ hq => hq
      · rename_i ha
        refine h.setConn i _ (fun _ => rfl) fun k' hk' ha' _ => ?_
        rw [hk] at hk'
        cases hk'
        exact absurd ha' ha

/-- The cursor of a pool is no part of the invariant. -/
theorem Inv.setNext (h : c.Inv x y) {peer : Bytes} {p : Pool} (hp : c.pools.get peer = some p)
    (n : Nat) : (c.setPool peer { p with next := n }).Inv x y := by
  have hget : ∀ peer' p', (c.setPool peer { p with next := n }).pools.get peer' = some p' →
      ∃ p0, c.pools.get peer' = some p0 ∧ p'.links = p0.links ∧ p'.direct = p0.direct ∧
        p'.held = p0.held := by
    intro peer' p' hp'
    simp only [setPool, OrdMap.get_set] at hp'
    split at hp'
    · rename_i hpp
      cases hp'
      exact ⟨p, hpp ▸ hp, rfl, rfl, rfl⟩
    · exact ⟨p', hp', rfl, rfl, rfl⟩
  refine ⟨⟨?_, ?_, ?_, h.sound.known⟩, h.drained⟩
  · intro peer' p' hp'
    obtain ⟨p0, hp0, h1, h2, h3⟩ := hget peer' p' hp'
    obtain ⟨hne, hfit⟩ := h.sound.pools peer' p0 hp0
    refine ⟨by rw [h1]; exact hne, ?_, by rw [h1, h3]; exact hfit.nodup,
      by rw [h1, h3]; exact hfit.mine⟩
    obtain ⟨ds, rs, hl, hd, hrest⟩ := hfit.split
    exact ⟨ds, rs, h1.trans hl, h2.trans hd, hrest⟩
  · intro j k peer' hx hk hc hpeer
    obtain ⟨p0, hp0, hj⟩ := h.sound.placed j k peer' hx hk hc hpeer
    by_cases hpp : peer' = peer
    · subst hpp
      rw [hp] at hp0
      cases hp0
      exact ⟨_, OrdMap.get_set_self _ _ _, hj⟩
    · exact ⟨p0, by simp only [setPool, OrdMap.get_set, if_neg hpp, hp0], hj⟩
  · intro j hx peer' p' hp'
    obtain ⟨p0, hp0, h1, -, h3⟩ := hget peer' p' hp'
    rw [h1, h3]
    exact h.sound.apart j hx peer' p0 hp0

theorem send_keeps (hclose : Closes x y close) (h : c.Inv x y) (peer frame : Bytes) :
    (c.send close peer frame).2.Inv x y ∧ Grows c (c.send close peer frame).2 := by
  unfold Core.send
  split
  · exact ⟨h, .refl c⟩
  · rename_i p hp
    split
    · exact ⟨h, .refl c⟩
    · simp only
      split
      · exact ⟨h, .refl c⟩
      · rename_i l hl
        obtain ⟨h1, h2⟩ := sendLink_keeps hclose (h.setNext hp (p.next % p.width + 1)) l frame
        have hg : Grows c (c.setPool peer { p with next := p.next % p.width + 1 }) :=
          grows_of_eq rfl rfl
        exact ⟨h1, hg.trans h2⟩

theorem place_keeps (hclose : Closes x y close) (h : c.Inv x y) (peer frame : Bytes) :
    (c.place close peer frame).2.Inv x y ∧ Grows c (c.place close peer frame).2 := by
  obtain ⟨h1, h2⟩ := send_keeps hclose h peer frame
  unfold Core.place
  split
  · rename_i c' heq
    rw [heq] at h1 h2
    exact ⟨h1, h2⟩
  · rename_i c' heq
    rw [heq] at h1 h2
    split
    · rename_i l ls hl
      obtain ⟨h3, h4⟩ := sendLink_keeps hclose h1 l frame
      exact ⟨h3, h2.trans h4⟩
    · exact ⟨h1, h2⟩

theorem placeAll_keeps (hclose : Closes x y close) (h : c.Inv x y) (peer : Bytes)
    (frames : List Bytes) :
    (frames.foldl (fun c frame => (c.place close peer frame).2) c).Inv x y ∧
      Grows c (frames.foldl (fun c frame => (c.place close peer frame).2) c) := by
  induction frames generalizing c with
  | nil => exact ⟨h, .refl c⟩
  | cons frame frames ih =>
    obtain ⟨h1, h2⟩ := place_keeps hclose h peer frame
    obtain ⟨h3, h4⟩ := ih h1
    exact ⟨h3, h2.trans h4⟩

/-- A link that closes leaves its pool and hands its queue on. -/
theorem forget_keeps (hclose : Closes x y close) (h : c.Inv x y) {i : Nat} {k : Conn}
    (farewell : Bool) (hk : c.conns[i]? = some k) :
    (forget close i k (c.setConn i (Conn.shut farewell))).Inv x y ∧
      Grows (c.setConn i (Conn.shut farewell))
        (forget close i k (c.setConn i (Conn.shut farewell))) := by
  obtain ⟨hs, hconns⟩ := h.sound.leave farewell hk
  have hown : (((c.setConn i (Conn.shut farewell)).dropConnecting i).remove i).own = c.own := by
    rw [remove_own, dropConnecting_own]
    rfl
  have hg : Grows (c.setConn i (Conn.shut farewell))
      (((c.setConn i (Conn.shut farewell)).dropConnecting i).remove i) := grows_of_eq hown hconns
  unfold Core.forget
  simp only
  split
  · rename_i hpeer
    refine ⟨⟨hs, fun j k' hk' ha hyc => ?_⟩, hg⟩
    rw [hconns, getElem?_setConn] at hk'
    split at hk'
    · rename_i hij
      subst hij
      rw [hk] at hk'
      cases hk'
      have hauthed := (h.sound.known i k hk).1 ha
      rw [Option.or_eq_none_iff] at hpeer
      exact absurd hpeer.1 hauthed
    · exact h.drained j k' hk' ha hyc
  · rename_i peer hpeer
    have hinv : ((((c.setConn i (Conn.shut farewell)).dropConnecting i).remove i).setConn i
        fun k => { k with queue := [] }).Inv x y := by
      refine ⟨hs.setConn i _ fun _ => rfl, fun j k' hk' ha hyc => ?_⟩
      rw [getElem?_setConn, hconns] at hk'
      split at hk'
      · obtain ⟨k0, -, rfl⟩ := Option.map_eq_some_iff.1 hk'
        rfl
      · rename_i hij
        rw [getElem?_setConn, if_neg hij] at hk'
        exact h.drained j k' hk' ha hyc
    obtain ⟨h1, h2⟩ := placeAll_keeps hclose hinv peer k.queue
    have hg2 := (hg.trans (setConn_grows i (fun k => { k with queue := [] }) _
      fun k => ⟨rfl, rfl, rfl, rfl, id⟩)).trans h2
    unfold Core.handOn
    split
    · exact ⟨h1.congr rfl rfl, hg2.trans (grows_of_eq rfl rfl)⟩
    · exact ⟨h1, hg2⟩

/-- However deep the links end inside one another, the pools stay in order. -/
theorem endLink_closes (n : Nat) (farewell : Bool) : Closes x y (endLink n farewell) := by
  induction n generalizing farewell with
  | zero => exact fun i c h => ⟨h, .refl c⟩
  | succ n ih =>
    intro i c h
    unfold Core.endLink
    split
    · exact ⟨h, .refl c⟩
    · rename_i k hk
      split
      · exact ⟨h, .refl c⟩
      · obtain ⟨h1, h2⟩ := forget_keeps (ih false) h farewell hk
        exact ⟨h1, (setConn_grows i _ c (shut_keeps farewell)).trans h2⟩

end Calls

/-! ### Links arriving -/

/-- Link `i` joins the pool of its peer. -/
theorem Sound.join {c : Core} {i : Nat} (h : c.Sound (some i)) {k : Conn} {peer : Bytes} {p : Pool}
    (hk : c.conns[i]? = some k) (hopen : k.closed = false) (hpeer : k.peerId = some peer)
    (hne : p.links ≠ []) (hsplit : p.Split c.relayed)
    (hperm : (p.links ++ p.held).Perm
      (i :: ((c.pools.get peer).map fun p => p.links ++ p.held).getD [])) :
    (c.setPool peer p).Sound none := by
  have hold : (((c.pools.get peer).map fun p => p.links ++ p.held).getD []).Nodup ∧
      i ∉ ((c.pools.get peer).map fun p => p.links ++ p.held).getD [] ∧
      ∀ j ∈ ((c.pools.get peer).map fun p => p.links ++ p.held).getD [], ∃ k : Conn,
        c.conns[j]? = some k ∧ k.closed = false ∧ k.peerId = some peer := by
    cases hp : c.pools.get peer with
    | none => simp
    | some p0 =>
      have hfit := (h.pools peer p0 hp).2
      exact ⟨hfit.nodup, h.apart i rfl peer p0 hp, hfit.mine⟩
  constructor
  · intro peer' p' hp'
    simp only [setPool, OrdMap.get_set] at hp'
    split at hp'
    · rename_i hpp
      subst hpp
      cases hp'
      refine ⟨hne, hsplit, hperm.nodup_iff.2 (List.nodup_cons.2 ⟨hold.2.1, hold.1⟩), fun j hj => ?_⟩
      rcases List.mem_cons.1 (hperm.mem_iff.1 hj) with rfl | hj
      · exact ⟨k, hk, hopen, hpeer⟩
      · exact hold.2.2 j hj
    · obtain ⟨hne', hfit⟩ := h.pools peer' p' hp'
      exact ⟨hne', hfit.split, hfit.nodup, hfit.mine⟩
  · intro j k' peer' _ hk' hc' hpeer'
    simp only [setPool, OrdMap.get_set]
    by_cases hij : j = i
    · subst hij
      rw [show c.conns[j]? = some k' from hk'] at hk
      cases hk
      rw [hpeer] at hpeer'
      cases hpeer'
      exact ⟨p, by simp, hperm.mem_iff.2 (by simp)⟩
    · obtain ⟨q, hq, hj⟩ := h.placed j k' peer' (by simpa using hij) hk' hc' hpeer'
      by_cases hpp : peer' = peer
      · subst hpp
        refine ⟨p, by simp, hperm.mem_iff.2 (List.mem_cons_of_mem _ ?_)⟩
        rw [hq]
        exact hj
      · exact ⟨q, by simp [hpp, hq], hj⟩
  · intro j hj
    cases hj
  · exact h.known

/-- Once link `x` is closed there is nothing to except. -/
theorem Sound.whole {c : Core} {i : Nat} (h : c.Sound (some i)) {k : Conn}
    (hk : c.conns[i]? = some k) (hc : k.closed = true) : c.Sound none where
  pools := h.pools
  placed := by
    intro j k' peer _ hk' hc' hpeer
    refine h.placed j k' peer ?_ hk' hc' hpeer
    rintro hij
    cases hij
    rw [hk] at hk'
    cases hk'
    rw [hc] at hc'
    cases hc'
  apart := by simp
  known := h.known

/-- An end closes its link. -/
theorem endLink_closed {x y : Option Nat} {c : Core} {i : Nat} {k : Conn} (n : Nat)
    (farewell : Bool) (h : c.Inv x y) (hk : c.conns[i]? = some k) :
    ∃ k', (endLink (n + 1) farewell i c).conns[i]? = some k' ∧ k'.closed = true := by
  unfold Core.endLink
  simp only [hk]
  split
  · rename_i hc
    exact ⟨k, hk, hc⟩
  · have hg := (forget_keeps (endLink_closes n false) h farewell hk).2
    obtain ⟨k', hk', hkeep⟩ := hg.conn i (k.shut farewell)
      (by rw [getElem?_setConn, if_pos rfl, hk]; rfl)
    exact ⟨k', hk', hkeep.closed rfl⟩

/-- A link with nothing to hand on ends without reaching another. -/
theorem endLink_drained {c : Core} {i : Nat} {k : Conn} {peer : Bytes} (n : Nat) (farewell : Bool)
    (hk : c.conns[i]? = some k) (hopen : k.closed = false) (ha : k.authed = true)
    (hpeer : k.peerId = some peer) (hq : k.queue = []) :
    endLink (n + 1) farewell i c =
      (((c.setConn i (Conn.shut farewell)).dropConnecting i).remove i).setConn i
        fun k => { k with queue := [] } := by
  simp [Core.endLink, hk, hopen, forget, hpeer, ha, handOn, hq]

section Promote

variable {c : Core} {i : Nat} {k : Conn} {peer : Bytes}

theorem retire_dialed (loser : Nat) (hd : c.weDialed loser = true) :
    c.retire peer loser = endLink (c.conns.length + 1) true loser c := by
  simp [retire, hd, Core.close, depth]

theorem retire_accepted {p : Pool} (loser : Nat) (hd : c.weDialed loser = false)
    (hp : c.pools.get peer = some p) :
    c.retire peer loser = c.setPool peer (p.hold loser) := by
  simp [retire, hd, modifyPool, hp]

/-- The end of a link in no list takes nothing out of its pool. -/
theorem shut_unlisted {r : Nat} {p : Pool} (farewell : Bool) (hk : c.conns[r]? = some k)
    (hpeer : k.peerId = some peer) (hp : c.pools.get peer = some p) (hr : r ∉ p.links ++ p.held) :
    (((c.setConn r (Conn.shut farewell)).dropConnecting r).remove r).pools = c.pools ∧
      (((c.setConn r (Conn.shut farewell)).dropConnecting r).remove r).conns =
        (c.setConn r (Conn.shut farewell)).conns ∧
      (((c.setConn r (Conn.shut farewell)).dropConnecting r).remove r).own = c.own := by
  have hk1 : ((c.setConn r (Conn.shut farewell)).dropConnecting r).conns[r]? =
      some (k.shut farewell) := by
    rw [dropConnecting_conns, getElem?_setConn, if_pos rfl, hk]
    rfl
  have hp1 : ((c.setConn r (Conn.shut farewell)).dropConnecting r).pools.get peer = some p := by
    rw [dropConnecting_pools]
    exact hp
  simp only [List.mem_append, not_or] at hr
  have hsame : ((c.setConn r (Conn.shut farewell)).dropConnecting r).remove r =
      (c.setConn r (Conn.shut farewell)).dropConnecting r := by
    simp only [Core.remove, hk1, Option.bind_some,
      show (k.shut farewell).peerId = some peer from hpeer, hp1, if_neg hr.2]
    rw [if_pos hr.1]
  rw [hsame]
  exact ⟨dropConnecting_pools _ _, dropConnecting_conns _ _, dropConnecting_own _ _⟩

/-- A newcomer that loses is closed or held. -/
theorem promote_loses {p : Pool} (h : c.Inv (some i) (some i)) (hk : c.conns[i]? = some k)
    (hopen : k.closed = false) (hpeer : k.peerId = some peer) (hp : c.pools.get peer = some p) :
    (c.retire peer i).Inv none (some i) ∧ Grows c (c.retire peer i) := by
  cases hd : c.weDialed i with
  | true =>
    rw [retire_dialed i hd]
    obtain ⟨h1, h2⟩ := endLink_closes (c.conns.length + 1) true i c h
    obtain ⟨k', hk', hc'⟩ := endLink_closed c.conns.length true h hk
    exact ⟨⟨h1.sound.whole hk' hc', h1.drained⟩, h2⟩
  | false =>
    rw [retire_accepted i hd hp]
    obtain ⟨hne, hfit⟩ := h.sound.pools peer p hp
    refine ⟨⟨h.sound.join hk hopen hpeer hne hfit.split ?_, h.drained⟩, grows_of_eq rfl rfl⟩
    simp only [hp, Option.map_some, Option.getD_some, Pool.hold_links, Pool.hold_held,
      ← List.append_assoc]
    exact List.perm_append_singleton i _

/-- The rival of a newcomer that wins makes room for it. -/
theorem promote_wins {p : Pool} {r : Nat} (h : c.Inv (some i) (some i)) (hk : c.conns[i]? = some k)
    (hopen : k.closed = false) (hpeer : k.peerId = some peer) (hp : c.pools.get peer = some p)
    (hr : r ∈ p.links) :
    (((c.setPool peer (p.unlist (c.relayed r) r)).retire peer r).modifyPool peer
        (Pool.list (c.relayed i) i)).Inv none (some i) ∧
      Grows c (((c.setPool peer (p.unlist (c.relayed r) r)).retire peer r).modifyPool peer
        (Pool.list (c.relayed i) i)) := by
  obtain ⟨hne, hfit⟩ := h.sound.pools peer p hp
  obtain ⟨kr, hkr, hropen, hrpeer⟩ := hfit.mine r (by simp [hr])
  have hi : i ∉ p.links ++ p.held := h.sound.apart i rfl peer p hp
  have hir : i ≠ r := fun hir => hi (by simp [hir, hr])
  have hnodup := List.nodup_append.1 hfit.nodup
  have hsplit := hfit.split.unlist r
  have hp1 : (c.setPool peer (p.unlist (c.relayed r) r)).pools.get peer =
      some (p.unlist (c.relayed r) r) := OrdMap.get_set_self _ _ _
  have hlisted : ∀ q : Pool, q.Split c.relayed → (q.list (c.relayed i) i).links ≠ [] := by
    intro q hq hnil
    have := Pool.list_perm hq (c.relayed i) i
    rw [hnil] at this
    simp at this
  have hjoined : (c.setPool peer (p.list (c.relayed i) i)).Sound none := by
    refine h.sound.join hk hopen hpeer (hlisted p hfit.split) (hfit.split.list i) ?_
    simp only [hp, Option.map_some, Option.getD_some, Pool.list_held]
    exact (Pool.list_perm hfit.split _ i).append_right p.held
  cases hd : c.weDialed r with
  | true =>
    have hauthed := (h.sound.known r kr hkr).2 (by simp [hrpeer])
    have hrq := h.drained r kr hkr hauthed (.inl (by simpa using Ne.symm hir))
    rw [retire_dialed (c := c.setPool peer (p.unlist (c.relayed r) r)) r hd,
      endLink_drained (c := c.setPool peer (p.unlist (c.relayed r) r)) _ true hkr hropen hauthed
        hrpeer hrq]
    obtain ⟨hpools, hconns, hown⟩ := shut_unlisted (c := c.setPool peer (p.unlist (c.relayed r) r))
      true hkr hrpeer hp1 (by
        simp only [Pool.unlist_links, Pool.unlist_held, List.mem_append, not_or]
        exact ⟨fun hh => (hnodup.1.mem_erase_iff.1 hh).1 rfl, fun hh => hnodup.2.2 r hr r hh rfl⟩)
    generalize hX : (((c.setPool peer (p.unlist (c.relayed r) r)).setConn r
      (Conn.shut true)).dropConnecting r).remove r = X at hpools hconns hown
    have hget : (X.setConn r fun k => { k with queue := [] }).pools.get peer =
        some (p.unlist (c.relayed r) r) := by
      rw [show (X.setConn r fun k => { k with queue := [] }).pools = X.pools from rfl, hpools]
      exact hp1
    simp only [modifyPool, hget]
    have hgrows : Grows c ((X.setConn r fun k => { k with queue := [] }).setPool peer
        ((p.unlist (c.relayed r) r).list (c.relayed i) i)) := by
      have h1 : Grows c (c.setConn r (Conn.shut true)) := setConn_grows r _ c (shut_keeps true)
      have h2 : Grows (c.setConn r (Conn.shut true)) X := grows_of_eq hown hconns
      have h3 : Grows X (X.setConn r fun k => { k with queue := [] }) :=
        setConn_grows r _ X fun k => ⟨rfl, rfl, rfl, rfl, id⟩
      exact ((h1.trans h2).trans h3).trans (grows_of_eq rfl rfl)
    refine ⟨⟨?_, ?_⟩, hgrows⟩
    · have hw := hjoined.without (m := ((c.pools.set peer (p.unlist (c.relayed r) r)).set peer
          ((p.unlist (c.relayed r) r).list (c.relayed i) i)))
        (fun k => { k.shut true with queue := [] }) (fun k => ⟨⟨rfl, rfl, rfl, rfl, fun _ => rfl⟩, rfl⟩)
        hkr hrpeer (OrdMap.get_set_self _ _ _)
        (fun peer' hpp => by simp [setPool, OrdMap.get_set, hpp]) (by
          rw [OrdMap.get_set_self]
          refine ⟨hlisted _ hsplit, hsplit.list i, ?_⟩
          have h1 := (Pool.list_perm hsplit (c.relayed i) i).append_right p.held
          have h2 := ((Pool.list_perm hfit.split (c.relayed i) i).append_right p.held).erase r
          simp only [Pool.list_held, Pool.unlist_held, Pool.unlist_links] at h1 ⊢
          refine h1.trans (List.Perm.trans ?_ h2.symm)
          simp [List.erase_cons, Ne.symm hir, hir, List.erase_append_left _ hr])
      refine hw.congr ?_ ?_
      · simp only [setPool]
        rw [show (X.setConn r fun k => { k with queue := [] }).pools = X.pools from rfl, hpools]
        rfl
      · show (X.setConn r fun k => { k with queue := [] }).conns = _
        apply List.ext_getElem?
        intro j
        rw [getElem?_setConn, hconns]
        show _ = ((c.setPool peer (p.list (c.relayed i) i)).setConn r
          fun k => { k.shut true with queue := [] }).conns[j]?
        rw [getElem?_setConn]
        simp only [setPool, setConn, List.getElem?_modify]
        split <;> simp_all
    · intro j k' hk' ha hyc
      have hk' : (X.setConn r fun k => { k with queue := [] }).conns[j]? = some k' := hk'
      rw [getElem?_setConn, hconns] at hk'
      split at hk'
      · obtain ⟨k0, -, rfl⟩ := Option.map_eq_some_iff.1 hk'
        rfl
      · rename_i hij
        have hk' : (c.setConn r (Conn.shut true)).conns[j]? = some k' := hk'
        rw [getElem?_setConn, if_neg hij] at hk'
        exact h.drained j k' hk' ha hyc
  | false =>
    rw [retire_accepted (c := c.setPool peer (p.unlist (c.relayed r) r)) r hd hp1]
    have hget : ((c.setPool peer (p.unlist (c.relayed r) r)).setPool peer
        ((p.unlist (c.relayed r) r).hold r)).pools.get peer =
        some ((p.unlist (c.relayed r) r).hold r) := OrdMap.get_set_self _ _ _
    simp only [modifyPool, hget]
    refine ⟨⟨?_, h.drained⟩, grows_of_eq rfl rfl⟩
    have hj : (c.setPool peer (((p.unlist (c.relayed r) r).hold r).list (c.relayed i) i)).Sound
        none := by
      refine h.sound.join hk hopen hpeer (hlisted _ (hsplit.hold r)) ((hsplit.hold r).list i) ?_
      simp only [hp, Option.map_some, Option.getD_some, Pool.list_held, Pool.hold_held,
        Pool.unlist_held]
      refine ((Pool.list_perm (hsplit.hold r) (c.relayed i) i).append_right _).trans ?_
      simp only [Pool.hold_links, Pool.unlist_links, List.cons_append, List.perm_cons]
      have h2 : (p.links.erase r ++ (p.held ++ [r])).Perm (r :: p.links.erase r ++ p.held) := by
        rw [← List.append_assoc]
        exact List.perm_append_singleton r _
      exact h2.trans ((List.perm_cons_erase hr).symm.append_right p.held)
    exact hj.repool fun peer' => by simp only [setPool, OrdMap.get_set]; split <;> simp_all

theorem promote_keeps (h : c.Inv (some i) (some i)) (hk : c.conns[i]? = some k)
    (hopen : k.closed = false) (hpeer : k.peerId = some peer) :
    (c.promote peer i).2.Inv none (some i) ∧ Grows c (c.promote peer i).2 := by
  unfold Core.promote
  cases hp : c.pools.get peer with
  | none =>
    have hempty : Pool.empty.Split c.relayed := ⟨[], [], rfl, rfl, by simp, by simp⟩
    have hperm := Pool.list_perm hempty (c.relayed i) i
    refine ⟨⟨h.sound.join hk hopen hpeer (fun hnil => ?_) (hempty.list i) ?_, h.drained⟩,
      grows_of_eq rfl rfl⟩
    · rw [hnil] at hperm
      simp at hperm
    · simpa [hp, Pool.empty] using hperm
  | some p =>
    simp only
    obtain ⟨hne, hfit⟩ := h.sound.pools peer p hp
    cases hr : p.links.find? (c.isRival i) with
    | none =>
      have hperm := Pool.list_perm hfit.split (c.relayed i) i
      refine ⟨⟨h.sound.join hk hopen hpeer (fun hnil => ?_) (hfit.split.list i) ?_, h.drained⟩,
        grows_of_eq rfl rfl⟩
      · rw [hnil] at hperm
        simp at hperm
      · simp only [hp, Option.map_some, Option.getD_some, Pool.list_held]
        exact hperm.append_right p.held
    | some r =>
      simp only
      split
      · exact promote_loses h hk hopen hpeer hp
      · obtain ⟨h1, h2⟩ := promote_wins h hk hopen hpeer hp (List.mem_of_find?_eq_some hr)
        have hrel : ((c.setPool peer (p.unlist (c.relayed r) r)).retire peer r).relayed i =
            c.relayed i := by
          have hconns : ∀ (q : Pool → Pool) (c : Core),
              (c.modifyPool peer q).relayed i = c.relayed i := by
            intro q c
            unfold modifyPool
            split <;> rfl
          rw [← hconns (Pool.list (c.relayed i) i), h2.relayed_apply]
        simp only [hrel]
        exact ⟨h1, h2⟩

end Promote

/-! ### Relayed links retiring -/

/-- A pool changes its shape but not its members. -/
theorem Sound.reshape {c : Core} {x : Option Nat} (h : c.Sound x) {peer : Bytes} {p p' : Pool}
    (hp : c.pools.get peer = some p) (hne : p'.links ≠ []) (hsplit : p'.Split c.relayed)
    (hperm : (p'.links ++ p'.held).Perm (p.links ++ p.held)) : (c.setPool peer p').Sound x := by
  have hfit := (h.pools peer p hp).2
  constructor
  · intro peer' q hq
    simp only [setPool, OrdMap.get_set] at hq
    split at hq
    · rename_i hpp
      subst hpp
      cases hq
      exact ⟨hne, hsplit, hperm.nodup_iff.2 hfit.nodup, fun j hj => hfit.mine j (hperm.mem_iff.1 hj)⟩
    · obtain ⟨hne', hfit'⟩ := h.pools peer' q hq
      exact ⟨hne', hfit'.split, hfit'.nodup, hfit'.mine⟩
  · intro j k peer' hx hk hc hpeer
    obtain ⟨q, hq, hj⟩ := h.placed j k peer' hx hk hc hpeer
    simp only [setPool, OrdMap.get_set]
    by_cases hpp : peer' = peer
    · subst hpp
      rw [hp] at hq
      cases hq
      exact ⟨p', by simp, hperm.mem_iff.2 hj⟩
    · exact ⟨q, by simp [hpp, hq], hj⟩
  · intro j hx peer' q hq
    simp only [setPool, OrdMap.get_set] at hq
    split at hq
    · rename_i hpp
      subst hpp
      cases hq
      exact fun hj => h.apart j hx _ p hp (hperm.mem_iff.1 hj)
    · exact h.apart j hx peer' q hq
  · exact h.known

/-- One relayed link retires: the direct links still route, and so do the other relayed
ones. -/
theorem retireOne_keeps {c : Core} {y : Option Nat} {peer : Bytes} {p : Pool} {l : Nat}
    (h : c.Inv none y) (hp : c.pools.get peer = some p) (hd : 0 < p.direct) (hl : l ∈ p.links)
    (hrel : c.relayed l = true) (hy : some l ≠ y) :
    (c.retireOne peer l).Inv none y ∧ Grows c (c.retireOne peer l) ∧
      ∃ p', (c.retireOne peer l).pools.get peer = some p' ∧ p'.direct = p.direct ∧
        p'.links = p.links.erase l := by
  obtain ⟨hne, hfit⟩ := h.sound.pools peer p hp
  obtain ⟨ds, rs, hlinks, hdirect, hds, hrs⟩ := hfit.split
  have hsplit := (hfit.split.unlist l).hold l
  have hpd : (p.unlist (c.relayed l) l).direct = p.direct := by simp [Pool.unlist, hl, hrel]
  have hne' : ((p.unlist (c.relayed l) l).hold l).links ≠ [] := by
    obtain ⟨ds', rs', hl', hd', -⟩ := hsplit
    intro hnil
    rw [hnil] at hl'
    rw [Pool.hold_direct, hpd] at hd'
    have := congrArg List.length hl'
    simp only [List.length_nil, List.length_append] at this
    omega
  have hperm : (((p.unlist (c.relayed l) l).hold l).links ++
      ((p.unlist (c.relayed l) l).hold l).held).Perm (p.links ++ p.held) := by
    simp only [Pool.hold_links, Pool.hold_held, Pool.unlist_links, Pool.unlist_held,
      ← List.append_assoc]
    refine (List.perm_append_singleton l _).trans ?_
    exact (List.perm_cons_erase hl).symm.append_right p.held
  have h1 : (c.setPool peer ((p.unlist (c.relayed l) l).hold l)).Inv none y :=
    ⟨h.sound.reshape hp hne' hsplit hperm, h.drained⟩
  have hg1 : Grows c (c.setPool peer ((p.unlist (c.relayed l) l).hold l)) := grows_of_eq rfl rfl
  have hp1 : (c.setPool peer ((p.unlist (c.relayed l) l).hold l)).pools.get peer =
      some ((p.unlist (c.relayed l) l).hold l) := OrdMap.get_set_self _ _ _
  have heq : c.retireOne peer l =
      (c.setPool peer ((p.unlist (c.relayed l) l).hold l)).sendLink
        (endLink (c.conns.length + 1) false) l CTL_RETIRE := by
    simp [retireOne, modifyPool, hp, depth, setPool]
  rw [heq]
  obtain ⟨h2, hg2⟩ := sendLink_keeps (endLink_closes (c.conns.length + 1) false) h1 l CTL_RETIRE
  refine ⟨h2, hg1.trans hg2, ?_⟩
  obtain ⟨k, hk, hopen, hpeer⟩ := hfit.mine l (by simp [hl])
  have hauthed := (h.sound.known l k hk).2 (by simp [hpeer])
  have hq := h.drained l k hk hauthed (.inl hy)
  have hk1 : (c.setPool peer ((p.unlist (c.relayed l) l).hold l)).conns[l]? = some k := hk
  unfold Core.sendLink
  simp only [hk1, hopen, hauthed, if_true, Bool.false_eq_true, if_false]
  split
  · -- The link ends on its retire and leaves the held ones.
    rw [endLink_drained (c := c.setPool peer ((p.unlist (c.relayed l) l).hold l)) _ false hk1 hopen
      hauthed hpeer hq]
    have hk2 : (((c.setPool peer ((p.unlist (c.relayed l) l).hold l)).setConn l
        (Conn.shut false)).dropConnecting l).conns[l]? = some (k.shut false) := by
      rw [dropConnecting_conns, getElem?_setConn, if_pos rfl, hk1]
      rfl
    have hp2 : (((c.setPool peer ((p.unlist (c.relayed l) l).hold l)).setConn l
        (Conn.shut false)).dropConnecting l).pools.get peer =
        some ((p.unlist (c.relayed l) l).hold l) := by
      rw [dropConnecting_pools]
      exact hp1
    refine ⟨{ (p.unlist (c.relayed l) l).hold l with
      held := ((p.unlist (c.relayed l) l).hold l).held.erase l }, ?_, hpd, by simp⟩
    rw [remove_held hk2 hpeer hp2 (by simp)]
    exact OrdMap.get_set_self _ _ _
  · exact ⟨_, hp1, hpd, by simp⟩

theorem retireAll_keeps {y : Option Nat} {peer : Bytes} (rs : List Nat) {c : Core} {p : Pool}
    (h : c.Inv none y) (hp : c.pools.get peer = some p) (hd : 0 < p.direct) (hn : rs.Nodup)
    (hrs : ∀ l ∈ rs, l ∈ p.links ∧ c.relayed l = true ∧ some l ≠ y) :
    (rs.foldl (retireOne peer) c).Inv none y ∧ Grows c (rs.foldl (retireOne peer) c) := by
  induction rs generalizing c p with
  | nil => exact ⟨h, .refl c⟩
  | cons l rs ih =>
    obtain ⟨hl, hrel, hy⟩ := hrs l (by simp)
    obtain ⟨h1, hg, p', hp', hd', hl'⟩ := retireOne_keeps h hp hd hl hrel hy
    rw [List.nodup_cons] at hn
    obtain ⟨h2, hg2⟩ := ih h1 hp' (by omega) hn.2 fun l' hmem => by
      obtain ⟨h3, h4, h5⟩ := hrs l' (by simp [hmem])
      refine ⟨?_, by rw [hg.relayed_apply]; exact h4, h5⟩
      rw [hl']
      have hne : l' ≠ l := fun heq => hn.1 (heq ▸ hmem)
      exact (List.mem_erase_of_ne hne).2 h3
    exact ⟨h2, hg.trans hg2⟩

theorem retireRelayed_keeps {c : Core} {y : Option Nat} (h : c.Inv none y) (peer : Bytes)
    (hy : ∀ i, y = some i → c.relayed i = false) :
    (c.retireRelayed peer).Inv none y ∧ Grows c (c.retireRelayed peer) := by
  unfold Core.retireRelayed
  cases hp : c.pools.get peer with
  | none => exact ⟨h, .refl c⟩
  | some p =>
    simp only
    split
    · exact ⟨h, .refl c⟩
    · rename_i hd
      obtain ⟨hne, hfit⟩ := h.sound.pools peer p hp
      have hn := (List.nodup_append.1 hfit.nodup).1
      refine retireAll_keeps _ h hp (Nat.pos_of_ne_zero hd) (hn.sublist (List.drop_sublist _ _))
        fun l hl => ?_
      obtain ⟨ds, rs, hlinks, hdirect, hds, hrs⟩ := hfit.split
      have hl' : l ∈ rs := by simpa [hlinks, hdirect] using hl
      have hrel : c.relayed l = true := hrs l hl'
      refine ⟨by simp [hlinks, hl'], hrel, fun hly => ?_⟩
      rw [hy l hly.symm] at hrel
      cases hrel

/-! ### Runs -/

theorem pump_keeps {x y : Option Nat} (pumped : List Bytes) (peer : Bytes) {c : Core}
    (h : c.Inv x y) :
    (pumped.foldl (fun c f => (c.place (endLink c.depth false) peer f).2) c).Inv x y ∧
      Grows c (pumped.foldl (fun c f => (c.place (endLink c.depth false) peer f).2) c) := by
  induction pumped generalizing c with
  | nil => exact ⟨h, .refl c⟩
  | cons f pumped ih =>
    obtain ⟨h1, h2⟩ := place_keeps (endLink_closes c.depth false) h peer f
    obtain ⟨h3, h4⟩ := ih h1
    exact ⟨h3, h2.trans h4⟩

theorem onAuth_keeps {c : Core} {i : Nat} {k : Conn} {peer : Bytes} (pumped : List Bytes)
    (h : c.Inv (some i) (some i)) (hk : c.conns[i]? = some k) (hopen : k.closed = false)
    (hpeer : k.peerId = some peer) :
    (c.onAuth peer i pumped).Inv none (some i) ∧ Grows c (c.onAuth peer i pumped) := by
  have h0 : (c.dropConnecting i).Inv (some i) (some i) := h.congr (by simp) (by simp)
  have hg0 : Grows c (c.dropConnecting i) := grows_of_eq (by simp) (by simp)
  obtain ⟨h1, hg1⟩ := promote_keeps h0 (by rw [dropConnecting_conns]; exact hk) hopen hpeer
  unfold Core.onAuth
  split
  · rename_i c' heq
    rw [heq] at h1 hg1
    exact ⟨h1, hg0.trans hg1⟩
  · rename_i c' heq
    rw [heq] at h1 hg1
    split
    · exact ⟨h1, hg0.trans hg1⟩
    · rename_i hrel
      obtain ⟨h2, hg2⟩ := pump_keeps pumped peer h1
      simp only
      split
      · exact ⟨h2, (hg0.trans hg1).trans hg2⟩
      · obtain ⟨h3, hg3⟩ := retireRelayed_keeps h2 peer fun j hj => by
          cases hj
          rw [hg2.relayed_apply]
          simpa using hrel
        exact ⟨h3, ((hg0.trans hg1).trans hg2).trans hg3⟩


/-- Outside a call no link is excepted. -/
abbrev Whole (c : Core) : Prop := c.Inv none none

theorem whole_create (own : Bytes) : (create own).Whole :=
  ⟨⟨by simp [create], by simp [create], by simp, by simp [create]⟩, by simp [Drained, create]⟩

theorem flush_whole {c : Core} {i : Nat} (h : c.Inv none (some i)) : (c.flush i).Whole := by
  unfold Core.flush
  split
  · rename_i hk
    refine ⟨h.sound, fun j k hkj ha hyc => h.drained j k hkj ha (.inl fun hij => ?_)⟩
    cases hij
    rw [hk] at hkj
    cases hkj
  · rename_i k hk
    split
    · rename_i hc
      refine ⟨h.sound, fun j k' hkj ha _ => h.drained j k' hkj ha ?_⟩
      by_cases hij : j = i
      · subst hij
        rw [hk] at hkj
        cases hkj
        exact .inr hc
      · exact .inl (by simpa using hij)
    · refine ⟨h.sound.setConn i _ fun _ => rfl, fun j k' hkj ha _ => ?_⟩
      rw [getElem?_setConn] at hkj
      split at hkj
      · obtain ⟨k0, -, rfl⟩ := Option.map_eq_some_iff.1 hkj
        rfl
      · rename_i hij
        exact h.drained j k' hkj ha (.inl (by simpa using Ne.symm hij))

/-- The link whose authentication is under way is in no pool yet. -/
theorem begin_inv {c : Core} {i : Nat} {k : Conn} (peer : Bytes) (h : c.Whole)
    (hk : c.conns[i]? = some k) (ha : k.authed = false) (hopen : k.closed = false) :
    (c.setConn i fun k => { k with authed := true, peerId := some peer }).Inv (some i) (some i) := by
  have hnone : k.peerId = none := by
    have := h.sound.known i k hk
    rw [ha] at this
    simpa using this
  have hget : ∀ (j : Nat) (k' : Conn), j ≠ i →
      (c.setConn i fun k => { k with authed := true, peerId := some peer }).conns[j]? = some k' →
      c.conns[j]? = some k' := by
    intro j k' hij hk'
    rw [getElem?_setConn, if_neg (Ne.symm hij)] at hk'
    exact hk'
  have hno : ∀ peer' p, c.pools.get peer' = some p → i ∉ p.links ++ p.held := by
    intro peer' p hp hi
    obtain ⟨k', hk', -, hpeer'⟩ := (h.sound.pools peer' p hp).2.mine i hi
    rw [hk] at hk'
    cases hk'
    rw [hnone] at hpeer'
    cases hpeer'
  have hrel : ∀ j, (c.setConn i fun k => { k with authed := true, peerId := some peer }).relayed j =
      c.relayed j := by
    intro j
    simp only [Core.relayed, getElem?_setConn]
    split <;> simp_all
  refine ⟨⟨?_, ?_, ?_, ?_⟩, ?_⟩
  · intro peer' p hp
    obtain ⟨hne, hfit⟩ := h.sound.pools peer' p hp
    refine ⟨hne, by rw [show (c.setConn i _).relayed = c.relayed from funext hrel]; exact hfit.split,
      hfit.nodup, fun j hj => ?_⟩
    obtain ⟨k', hk', hrest⟩ := hfit.mine j hj
    have hij : i ≠ j := fun hij => hno peer' p hp (hij ▸ hj)
    exact ⟨k', by rw [getElem?_setConn, if_neg hij, hk'], hrest⟩
  · intro j k' peer' hx hk' hc' hpeer'
    exact h.sound.placed j k' peer' (by simp) (hget j k' (by simpa using hx) hk') hc' hpeer'
  · intro j hj
    cases hj
    exact hno
  · intro j k' hk'
    rw [getElem?_setConn] at hk'
    split at hk'
    · obtain ⟨k0, -, rfl⟩ := Option.map_eq_some_iff.1 hk'
      simp
    · exact h.sound.known j k' hk'
  · intro j k' hk' ha' hyc
    by_cases hij : j = i
    · subst hij
      rw [getElem?_setConn, if_pos rfl, hk] at hk'
      cases hk'
      rcases hyc with hyc | hyc
      · simp at hyc
      · simp [hopen] at hyc
    · exact h.drained j k' (hget j k' hij hk') ha' (.inl (by simp))

theorem becomeAuthed_whole {c : Core} (h : c.Whole) (i : Nat) (peer : Bytes) (granted : Bool)
    (pumped : List Bytes) : (c.becomeAuthed i peer granted pumped).Whole := by
  unfold Core.becomeAuthed
  split
  · exact h
  · rename_i k hk
    split
    · exact h
    · rename_i hnot
      simp only [Bool.or_eq_true, not_or, Bool.not_eq_true] at hnot
      obtain ⟨hopen, ha⟩ := hnot
      have h1 := begin_inv (k.dialedPeerId.getD peer) h hk ha hopen
      have hk1 : (c.setConn i fun k' => { k' with
          authed := true, peerId := some (k.dialedPeerId.getD peer) }).conns[i]? =
          some { k with authed := true, peerId := some (k.dialedPeerId.getD peer) } := by
        rw [getElem?_setConn, if_pos rfl, hk]
        rfl
      simp only
      split
      · exact flush_whole (onAuth_keeps pumped h1 hk1 hopen rfl).1
      · obtain ⟨h2, -⟩ := endLink_closes (depth _) false i _ h1
        obtain ⟨k', hk', hc'⟩ := endLink_closed (depth (c.setConn i fun k' => { k' with
          authed := true, peerId := some (k.dialedPeerId.getD peer) }) - 1) false h1 hk1
        refine ⟨h2.sound.whole hk' hc', fun j k'' hkj ha' _ => h2.drained j k'' hkj ha' ?_⟩
        by_cases hij : j = i
        · subst hij
          have hkj : (Core.abort j _).conns[j]? = some k'' := hkj
          have hsame : some k'' = some k' := hkj.symm.trans hk'
          cases hsame
          exact .inr hc'
        · exact .inl (by simpa using hij)

theorem openLink_whole {c : Core} (h : c.Whole) (dialed : Option Bytes) (relayed : Bool)
    (room : Nat) : (c.openLink dialed relayed room).Whole := by
  have hget : ∀ (j : Nat) (k : Conn),
      (c.conns ++ [⟨dialed, none, relayed, false, false, false, [], room, []⟩])[j]? = some k →
      c.conns[j]? = some k ∨ j = c.conns.length ∧ k.peerId = none ∧ k.authed = false := by
    intro j k hk
    rcases Nat.lt_trichotomy j c.conns.length with hj | hj | hj
    · rw [List.getElem?_append_left hj] at hk
      exact .inl hk
    · subst hj
      simp at hk
      subst hk
      exact .inr ⟨rfl, rfl, rfl⟩
    · rw [List.getElem?_eq_none (by simp; omega)] at hk
      cases hk
  have hold : ∀ (j : Nat) (k : Conn), c.conns[j]? = some k →
      (c.conns ++ [⟨dialed, none, relayed, false, false, false, [], room, []⟩])[j]? = some k := by
    intro j k hk
    rw [List.getElem?_append_left (List.getElem?_eq_some_iff.1 hk).1]
    exact hk
  have hw : ({ c with conns := c.conns ++
      [⟨dialed, none, relayed, false, false, false, [], room, []⟩] } : Core).Whole := by
    refine ⟨⟨?_, ?_, by simp, ?_⟩, ?_⟩
    · intro peer p hp
      obtain ⟨hne, hfit⟩ := h.sound.pools peer p hp
      refine ⟨hne, ?_, hfit.nodup, fun j hj => ?_⟩
      · obtain ⟨ds, rs, hl, hd, hds, hrs⟩ := hfit.split
        have hsame : ∀ j ∈ p.links, Core.relayed j { c with conns := c.conns ++
            [⟨dialed, none, relayed, false, false, false, [], room, []⟩] } = c.relayed j := by
          intro j hj
          obtain ⟨k, hk, -⟩ := hfit.mine j (by simp [hj])
          simp only [Core.relayed, hold j k hk, hk]
        refine ⟨ds, rs, hl, hd, fun j hj => ?_, fun j hj => ?_⟩
        · exact (hsame j (by simp [hl, hj])).trans (hds j hj)
        · exact (hsame j (by simp [hl, hj])).trans (hrs j hj)
      · obtain ⟨k, hk, hrest⟩ := hfit.mine j hj
        exact ⟨k, hold j k hk, hrest⟩
    · intro j k peer hx hk hc hpeer
      rcases hget j k hk with hk | ⟨-, hnone, -⟩
      · exact h.sound.placed j k peer hx hk hc hpeer
      · rw [hnone] at hpeer
        cases hpeer
    · intro j k hk
      rcases hget j k hk with hk | ⟨-, hnone, ha⟩
      · exact h.sound.known j k hk
      · simp [hnone, ha]
    · intro j k hk ha hyc
      rcases hget j k hk with hk | ⟨-, -, ha'⟩
      · exact h.drained j k hk ha hyc
      · rw [ha] at ha'
        cases ha'
  unfold Core.openLink
  cases dialed with
  | none => exact hw
  | some peer => exact hw.congr rfl rfl

/-- Every call leaves the pools in order. -/
theorem step_whole {c : Core} (h : c.Whole) (e : Event) : (c.step e).Whole := by
  have hclose : ∀ {x y : Option Nat}, Closes x y (endLink c.depth false) :=
    fun {x y} => endLink_closes c.depth false
  cases e with
  | opened dialed relayed room => exact openLink_whole h dialed relayed room
  | authed i peer granted pumped => exact becomeAuthed_whole h i peer granted pumped
  | close i => exact (endLink_closes c.depth true i c h).1
  | abort i => exact (hclose i c h).1
  | goodbye i =>
    simp only [Core.step, onGoodbye]
    split
    · exact h
    · split
      · exact h
      · have h1 := (h.setConn i (fun k => { k with peerSaidGoodbye := true }) (fun _ => rfl)
          fun _ _ _ hq => hq).1
        exact (endLink_closes _ true i _ h1).1
  | retire i =>
    simp only [Core.step, onRetire]
    split
    · exact h
    · split
      · exact h
      · split
        · exact (endLink_closes c.depth true i c h).1
        · exact h
  | retireRelayed peer => exact (retireRelayed_keeps h peer (by simp)).1
  | send peer frame => exact (send_keeps hclose h peer frame).1
  | sendOn peer link frame =>
    simp only [Core.step, sendOn]
    split
    · exact (send_keeps hclose h peer frame).1
    · split
      · exact (sendLink_keeps hclose h link frame).1
      · exact (send_keeps hclose h peer frame).1
  | sendInOrder peer frame =>
    simp only [Core.step, sendInOrder]
    split
    · exact h
    · split
      · exact h
      · exact (sendLink_keeps hclose h _ frame).1
  | place peer frame => exact (place_keeps hclose h peer frame).1
  | room i n =>
    exact (h.setConn i (fun k => { k with room := n }) (fun _ => rfl) fun _ _ _ hq => hq).1

theorem whole_run {c : Core} (h : c.Whole) (evs : List Event) : (c.run evs).Whole := by
  induction evs generalizing c with
  | nil => exact h
  | cons e evs ih => exact ih (step_whole h e)

/-! ### The pools -/

/-- A node's pools as they are between calls. -/
structure InOrder (c : Core) : Prop where
  /-- A peer with a pool has a routable link. -/
  routable : ∀ peer p, c.pools.get peer = some p → p.links ≠ []
  /-- The direct links come first and are counted. -/
  leads : ∀ peer p, c.pools.get peer = some p → p.direct ≤ p.links.length ∧
    (∀ i ∈ p.links.take p.direct, c.relayed i = false) ∧
    ∀ i ∈ p.links.drop p.direct, c.relayed i = true
  /-- An open authenticated link is once in its own peer's pool and in no other. -/
  placed : ∀ (i : Nat) (k : Conn), c.conns[i]? = some k → k.authed = true → k.closed = false →
    ∃ peer p, k.peerId = some peer ∧ c.pools.get peer = some p ∧
      p.links.count i + p.held.count i = 1 ∧
      ∀ peer' p', peer' ≠ peer → c.pools.get peer' = some p' → i ∉ p'.links ∧ i ∉ p'.held
  /-- What a pool holds is open and authenticated. -/
  open_ : ∀ peer p, c.pools.get peer = some p → ∀ i ∈ p.links ++ p.held,
    ∃ k : Conn, c.conns[i]? = some k ∧ k.authed = true ∧ k.closed = false
  /-- The index `send` takes is inside the list, and at a direct link if there is one. -/
  picks : ∀ peer p, c.pools.get peer = some p → ∃ l, p.links[p.next % p.width]? = some l ∧
    (0 < p.direct → c.relayed l = false)

/-- `remove` reports a peer down exactly when it deletes the peer's pool. -/
def Reports (c : Core) (i : Nat) : Prop :=
  (∃ peer p, c.pools.get peer = some p ∧ (c.remove i).pools.get peer = none ∧
    (c.remove i).downs = c.downs ++ [peer]) ∨
  ((∀ peer, (c.remove i).pools.get peer = none ↔ c.pools.get peer = none) ∧
    (c.remove i).downs = c.downs)

theorem remove_reports (c : Core) (i : Nat) : c.Reports i := by
  have hset : ∀ (peer : Bytes) (p p' : Pool), c.pools.get peer = some p →
      (∀ peer', (c.setPool peer p').pools.get peer' = none ↔ c.pools.get peer' = none) ∧
        (c.setPool peer p').downs = c.downs := by
    intro peer p p' hp
    refine ⟨fun peer' => ?_, rfl⟩
    simp only [setPool, OrdMap.get_set]
    split <;> simp_all
  unfold Reports
  cases hpeer : c.conns[i]?.bind Conn.peerId with
  | none => simp [Core.remove, hpeer]
  | some peer =>
    cases hp : c.pools.get peer with
    | none => simp [Core.remove, hpeer, hp]
    | some p =>
      simp only [Core.remove, hpeer, hp]
      split
      · exact .inr (hset peer p _ hp)
      · split
        · simp
        · split
          · exact .inr (hset peer p _ hp)
          · split
            · exact .inr (hset peer p _ hp)
            · exact .inl ⟨peer, p, hp, by simp [peerDown, OrdMap.get_delete], rfl⟩

theorem Whole.inOrder {c : Core} (h : c.Whole) : c.InOrder where
  routable peer p hp := (h.sound.pools peer p hp).1
  leads peer p hp := by
    obtain ⟨ds, rs, hl, hd, hds, hrs⟩ := (h.sound.pools peer p hp).2.split
    refine ⟨by simp [hl, hd], fun i hi => hds i ?_, fun i hi => hrs i ?_⟩
    · simpa [hl, hd] using hi
    · simpa [hl, hd] using hi
  placed i k hk ha hc := by
    have hpeer := (h.sound.known i k hk).1 ha
    obtain ⟨peer, hpeer⟩ := Option.ne_none_iff_exists'.1 hpeer
    obtain ⟨p, hp, hi⟩ := h.sound.placed i k peer (by simp) hk hc hpeer
    refine ⟨peer, p, hpeer, hp, ?_, fun peer' p' hpp hp' => ?_⟩
    · rw [← List.count_append]
      exact List.count_eq_one_of_mem (h.sound.pools peer p hp).2.nodup hi
    · have hnot : i ∉ p'.links ++ p'.held := by
        intro hi'
        obtain ⟨k', hk', -, hpeer'⟩ := (h.sound.pools peer' p' hp').2.mine i hi'
        rw [hk] at hk'
        cases hk'
        rw [hpeer] at hpeer'
        exact hpp (Option.some.inj hpeer').symm
      simpa using hnot
  open_ peer p hp i hi := by
    obtain ⟨k, hk, hc, hpeer⟩ := (h.sound.pools peer p hp).2.mine i hi
    exact ⟨k, hk, (h.sound.known i k hk).2 (by simp [hpeer]), hc⟩
  picks peer p hp := by
    obtain ⟨hne, hfit⟩ := h.sound.pools peer p hp
    obtain ⟨ds, rs, hl, hd, hds, hrs⟩ := hfit.split
    have hlen : 0 < p.links.length := List.length_pos_iff.2 hne
    by_cases hzero : p.direct = 0
    · have hlt : p.next % p.width < p.links.length := by
        simp only [Pool.width, hzero, if_true]
        exact Nat.mod_lt _ hlen
      exact ⟨p.links[p.next % p.width], List.getElem?_eq_getElem hlt, fun hpos => by omega⟩
    · have hlt : p.next % p.width < ds.length := by
        rw [hd] at hzero
        simp only [Pool.width, hd, hzero, if_false]
        exact Nat.mod_lt _ (by omega)
      refine ⟨ds[p.next % p.width], ?_, fun _ => hds _ (List.getElem_mem hlt)⟩
      rw [hl, List.getElem?_append_left hlt, List.getElem?_eq_getElem hlt]

/-- The pools of a node are in order after every run of authentications, closes, retires and
sends, the closes inside other calls included. -/
theorem pools_in_order (own : Bytes) (evs : List Event) :
    ((create own).run evs).InOrder ∧ ∀ c i, Reports c i :=
  ⟨(whole_run (whole_create own) evs).inOrder, remove_reports⟩

end Core

end SeedTransport
