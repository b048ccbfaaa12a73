import SeedTransport.Udp.Model

set_option autoImplicit false

namespace SeedTransport

/-! Where a negotiation's path may go: over every run, an address it takes or moves to was
challenged first and answered from there. -/

/-- A probe that carries `challenge`. -/
def IsProbe (p challenge : Bytes) : Prop :=
  p.length = PROBE_BYTES ∧ p.headD 0 = TYPE_PROBE ∧ p.drop (1 + 2 * TOKEN) = challenge

/-- A probe with `challenge` went to `a`. -/
def Probed (log : List PathMark) (a : Addr) (challenge : Bytes) : Prop :=
  ∃ id p, .sent id a p ∈ log ∧ IsProbe p challenge

/-- The path after `log`. -/
def pathOf (log : List PathMark) : Option Addr :=
  log.foldl (fun path m =>
    match m with
    | .took a _ => some a
    | .moved a _ => some a
    | _ => path) none

/-- What a path's mark must follow: the echo of a challenge, from the address it was sent to;
and a move goes to an address heard no earlier than the path it leaves. -/
def PathOk (before : List PathMark) : PathMark → Prop
  | .took a challenge =>
    (∃ b, before = b ++ [.echo a challenge]) ∧ Probed before a challenge ∧ pathOf before = none
  | .moved a challenge =>
    (∃ b, before = b ++ [.echo a challenge]) ∧ Probed before a challenge ∧
      ∃ old, pathOf before = some old ∧ ∀ t, .heard t old ∈ before → ∃ t', t ≤ t' ∧ .heard t' a ∈ before
  | _ => True

/-- A mark that is only something sent. -/
def IsSent : PathMark → Prop
  | .sent _ _ _ => True
  | _ => False

theorem Probed.append {log : List PathMark} {a : Addr} {ch : Bytes} (h : Probed log a ch)
    (more : List PathMark) : Probed (log ++ more) a ch := by
  obtain ⟨id, p, hm, hp⟩ := h
  exact ⟨id, p, List.mem_append_left _ hm, hp⟩

@[simp] theorem pathOf_snoc (log : List PathMark) (m : PathMark) : pathOf (log ++ [m]) =
    match m with
    | .took a _ => some a
    | .moved a _ => some a
    | _ => pathOf log := by
  simp only [pathOf, List.foldl_append, List.foldl_cons, List.foldl_nil]

/-- Every mark is as it must be after those before it. -/
def Validated (log : List PathMark) : Prop := ∀ a m c, log = a ++ m :: c → PathOk a m

theorem Validated.snoc {log : List PathMark} (h : Validated log) {m : PathMark} (hm : PathOk log m) :
    Validated (log ++ [m]) := by
  intro a x c he
  rcases List.eq_nil_or_concat c with rfl | ⟨c', y, rfl⟩
  · obtain ⟨rfl, hx⟩ := List.append_inj' he rfl
    rw [← List.singleton_inj.1 hx]
    exact hm
  · have he' : log ++ [m] = (a ++ x :: c') ++ [y] := by simpa using he
    exact h a x c' (List.append_inj' he' rfl).1

/-- What a negotiation knows of its path. -/
structure Sound (g : Negotiation) (now : ℚ) : Prop where
  token : g.token.length = TOKEN
  peer : ∀ t, g.peerToken = some t → t.length = TOKEN
  known : g.path ≠ none → g.peerToken ≠ none
  path : g.path = pathOf g.log
  past : ∀ t a, .heard t a ∈ g.log → t ≤ now
  moving : ∀ m, g.moving = some m →
    Probed g.log m.addr m.challenge ∧ m.challenge.length = 8 ∧ .heard m.heard m.addr ∈ g.log
  order : ∀ q t, g.path = some q → .heard t q ∈ g.log →
    t ≤ g.pathHeard ∨ ∀ m, g.moving = some m → t ≤ m.heard
  valid : Validated g.log

/-- `d` is `c` after nothing but packets sent and changes that leave the path alone. -/
structure Quiet (c d : Punch) : Prop where
  now : d.now = c.now
  token : d.self.token = c.self.token
  peerToken : d.self.peerToken = c.self.peerToken
  path : d.self.path = c.self.path
  pathHeard : d.self.pathHeard = c.self.pathHeard
  moving : d.self.moving = c.self.moving
  log : ∃ sents, d.self.log = c.self.log ++ sents ∧ ∀ m ∈ sents, IsSent m

namespace Quiet

variable {c d e : Punch}

theorem refl (c : Punch) : Quiet c c := ⟨rfl, rfl, rfl, rfl, rfl, rfl, [], by simp, by simp⟩

theorem trans (h : Quiet c d) (h' : Quiet d e) : Quiet c e := by
  obtain ⟨s, hs, hsent⟩ := h.log
  obtain ⟨s', hs', hsent'⟩ := h'.log
  refine ⟨h'.now.trans h.now, h'.token.trans h.token, h'.peerToken.trans h.peerToken, h'.path.trans h.path,
    h'.pathHeard.trans h.pathHeard, h'.moving.trans h.moving, s ++ s', by rw [hs', hs, List.append_assoc], ?_⟩
  intro m hm
  exact (List.mem_append.1 hm).elim (hsent m) (hsent' m)

/-- A change of other fields. -/
theorem upd {f : Negotiation → Negotiation} (h : ∀ g, (f g).token = g.token ∧ (f g).peerToken = g.peerToken ∧
    (f g).path = g.path ∧ (f g).pathHeard = g.pathHeard ∧ (f g).moving = g.moving ∧ (f g).log = g.log)
    (c : Punch) : Quiet c (c.upd f) := by
  obtain ⟨h1, h2, h3, h4, h5, h6⟩ := h c.self
  exact ⟨rfl, h1, h2, h3, h4, h5, [], by simp [Punch.upd, h6], by simp⟩

theorem onUdp (f : UdpSockets → UdpSockets) (c : Punch) : Quiet c (c.onUdp f) :=
  ⟨rfl, rfl, rfl, rfl, rfl, rfl, [], by simp [Punch.onUdp], by simp⟩

theorem sendto (id : Nat) (a : Addr) (p : Bytes) (c : Punch) : Quiet c (c.sendto id a p) :=
  ⟨rfl, rfl, rfl, rfl, rfl, rfl, [.sent id a p], rfl, by simp [IsSent]⟩

theorem foldl {α : Type} {f : Punch → α → Punch} (hf : ∀ c x, Quiet c (f c x)) (xs : List α) (c : Punch) :
    Quiet c (xs.foldl f c) := by
  induction xs generalizing c with
  | nil => exact refl c
  | cons x xs ih => exact (hf c x).trans (ih _)

theorem ite {p : Prop} [Decidable p] {d' : Punch} (h : Quiet c d) (h' : Quiet c d') :
    Quiet c (if p then d else d') := by
  split
  · exact h
  · exact h'

theorem sendEach (id : Nat) (addrs : List Addr) (p : Bytes) (c : Punch) : Quiet c (c.sendEach id addrs p) :=
  foldl (fun c a => sendto id a p c) addrs c

theorem freeExtra (c : Punch) : Quiet c c.freeExtra := ite ((onUdp _ c).trans (upd (by simp) _)) (refl c)

theorem keepOnly (keep : Nat) (c : Punch) : Quiet c (c.keepOnly keep) :=
  ((onUdp _ c).trans (upd (by simp) _)).trans (freeExtra _)

theorem stopPunching (c : Punch) : Quiet c c.stopPunching := upd (by simp) c

theorem close (c : Punch) : Quiet c c.close :=
  ite (refl c) (((upd (by simp) c).trans (stopPunching _)).trans (keepOnly 0 _))

theorem closeIf (b : Bool) (c : Punch) : Quiet c (c.closeIf b) := ite (close c) (refl c)

theorem next (c : Punch) : Quiet c c.next := ite (refl c) (upd (by simp) c)

theorem openBirthday (c : Punch) : Quiet c c.openBirthday :=
  ite (((onUdp _ c).trans (upd (by simp) _)).trans (foldl (fun c _ => next c) _ _)) (refl c)

theorem startSpray (c : Punch) : Quiet c c.startSpray :=
  ite ((onUdp _ c).trans (ite (upd (by simp) _) (onUdp _ _))) (refl c)

theorem birthday (c : Punch) : Quiet c c.birthday :=
  ite (refl c) ((openBirthday c).trans (startSpray _))

theorem spray (random : Nat → Nat) (c : Punch) : Quiet c (c.spray random) :=
  ite ((sendEach _ _ _ c).trans (upd (by simp) _)) (refl c)

theorem countRound (c : Punch) : Quiet c c.countRound :=
  (upd (by simp) c).trans (ite (birthday _) (refl _))

theorem round (random : Nat → Nat) (c : Punch) : Quiet c (c.round random) :=
  (upd (by simp) c).trans (ite (refl _)
    ((((sendEach _ _ _ _).trans (spray random _)).trans (countRound _)).trans (upd (by simp) _)))

theorem probe (random : Nat → Nat) (c : Punch) : Quiet c (c.probe random) := ite (refl c) (round random c)

theorem addPeer (a : Addr) (random : Nat → Nat) (c : Punch) : Quiet c (c.addPeer a random) :=
  ite (refl c) (ite (ite (refl c) ((upd (by simp) c).trans (birthday _)))
    (ite (refl c) (((upd (by simp) c).trans (foldl (fun c id => sendto id a _ c) _ _)).trans (probe random _))))

theorem askStun (c : Punch) : Quiet c c.askStun :=
  (upd (by simp) c).trans (ite (refl _) ((foldl (fun c a => sendto _ _ _ c) _ _).trans (upd (by simp) _)))

theorem onMapped (a : Addr) (fx : Fx) (c : Punch) : Quiet c (c.onMapped a fx) :=
  ((upd (by simp) c).trans (closeIf _ _)).trans (birthday _)

theorem onStun (p : Bytes) (fx : Fx) (c : Punch) : Quiet c (c.onStun p fx) := by
  unfold Punch.onStun
  split
  · exact refl c
  · split
    · exact refl c
    · exact (upd (by simp) c).trans (onMapped _ fx _)

theorem addExtra (s : Option Nat) (c : Punch) : Quiet c (c.addExtra s) := by
  unfold Punch.addExtra
  split
  · exact refl _
  · exact ite (onUdp _ _) (((upd (by simp) _).trans (onUdp _ _)).trans (sendEach _ _ _ _))

theorem extraBound (s : Option Nat) (c : Punch) : Quiet c (c.extraBound s) :=
  ((upd (by simp) c).trans (addExtra s _)).trans (next _)

theorem refilled (b : Option Bytes) (c : Punch) : Quiet c (c.refilled b) := by
  unfold Punch.refilled
  split <;> exact upd (by simp) c

theorem start (fx : Fx) (c : Punch) : Quiet c (c.start fx) :=
  (((upd (by simp) c).trans (closeIf _ _)).trans (askStun _)).trans (probe _ _)

theorem onWake (fx : Fx) (c : Punch) : Quiet c (c.onWake fx) :=
  ite (refl c) (((ite (askStun c) (refl c)).trans (ite (round _ _) (refl _))).trans (closeIf _ _))

theorem candidate (a : Option Addr) (fx : Fx) (c : Punch) : Quiet c (c.candidate a fx) := by
  unfold Punch.candidate
  refine ite (refl c) ?_
  split
  · exact close c
  · exact addPeer _ _ c

end Quiet

/-! ### What keeps a negotiation sound -/

section Sound

variable {c d : Punch}

theorem pathOf_sent {log sents : List PathMark} (h : ∀ m ∈ sents, IsSent m) :
    pathOf (log ++ sents) = pathOf log := by
  induction sents using List.reverseRecOn with
  | nil => simp
  | append_singleton sents m ih =>
    rw [← List.append_assoc, pathOf_snoc]
    have hm := h m (by simp)
    cases m with
    | sent id a p => exact ih fun x hx => h x (List.mem_append_left _ hx)
    | _ => exact hm.elim

theorem Validated.sents {log sents : List PathMark} (h : Validated log) (hs : ∀ m ∈ sents, IsSent m) :
    Validated (log ++ sents) := by
  induction sents using List.reverseRecOn with
  | nil => simpa using h
  | append_singleton sents m ih =>
    rw [← List.append_assoc]
    refine (ih fun x hx => hs x (List.mem_append_left _ hx)).snoc ?_
    have hm := hs m (by simp)
    cases m with
    | sent id a p => trivial
    | _ => exact hm.elim

theorem heard_sents {log sents : List PathMark} (hs : ∀ m ∈ sents, IsSent m) {t : ℚ} {a : Addr}
    (h : .heard t a ∈ log ++ sents) : .heard t a ∈ log := by
  rcases List.mem_append.1 h with h | h
  · exact h
  · exact (hs _ h).elim

theorem Sound.quiet (h : Sound c.self c.now) (hq : Quiet c d) : Sound d.self d.now := by
  obtain ⟨sents, hlog, hs⟩ := hq.log
  refine ⟨?_, ?_, ?_, ?_, ?_, ?_, ?_, ?_⟩
  · rw [hq.token]
    exact h.token
  · rw [hq.peerToken]
    exact h.peer
  · rw [hq.path, hq.peerToken]
    exact h.known
  · rw [hq.path, hlog, pathOf_sent hs]
    exact h.path
  · rw [hlog, hq.now]
    exact fun t a ha => h.past t a (heard_sents hs ha)
  · rw [hlog, hq.moving]
    intro m hm
    obtain ⟨hp, hlen, hheard⟩ := h.moving m hm
    exact ⟨hp.append sents, hlen, List.mem_append_left _ hheard⟩
  · rw [hlog, hq.path, hq.pathHeard, hq.moving]
    exact fun q t hpath ht => h.order q t hpath (heard_sents hs ht)
  · rw [hlog]
    exact h.valid.sents hs

/-- The peer's token becomes known. -/
theorem Sound.peerToken (h : Sound c.self c.now) {t : Bytes} (ht : t.length = TOKEN) :
    Sound (c.upd fun g => { g with peerToken := some t }).self c.now :=
  ⟨h.token, fun _ he => Option.some.inj he ▸ ht, fun _ => by simp [Punch.upd], h.path, h.past, h.moving, h.order,
    h.valid⟩

theorem Sound.onProbe (h : Sound c.self c.now) (id : Nat) (p : Bytes) (a : Addr) (fx : Fx) :
    Sound (c.onProbe id p a fx).self (c.onProbe id p a fx).now := by
  unfold Punch.onProbe
  split
  · exact h
  · rename_i hlen
    have hlen := not_not.1 hlen
    have htoken : (c.self.peerToken.getD ((p.drop (1 + TOKEN)).take TOKEN)).length = TOKEN := by
      cases ht : c.self.peerToken with
      | none =>
        simp only [Option.getD_none, List.length_take, List.length_drop, hlen]
        decide
      | some t => exact h.peer t ht
    refine Sound.quiet (h.peerToken htoken) ?_
    exact ((Quiet.sendto id a _ _).trans (Quiet.ite (Quiet.sendto id a _ _) (Quiet.refl _))).trans
      (Quiet.addPeer a _ _)

theorem Sound.description (h : Sound c.self c.now) (token : Option Bytes) (fx : Fx) :
    Sound (c.description token fx).self (c.description token fx).now := by
  unfold Punch.description
  split
  · exact h
  · split
    · exact h.quiet (Quiet.close c)
    · rename_i t ht
      have hlen : t.length = TOKEN := by simpa using (Option.filter_eq_some_iff.1 ht).2
      exact Sound.quiet (h.peerToken hlen) (Quiet.probe _ _)

/-- A packet that shows the peer at an address. -/
theorem Sound.heard (h : Sound c.self c.now) {q a : Addr} (hq : c.self.path = some q) (hne : a ≠ q) :
    Sound (c.mark (.heard c.now a)).self c.now := by
  refine ⟨h.token, h.peer, h.known, ?_, ?_, ?_, ?_, ?_⟩
  · simp only [Punch.mark, Punch.upd, pathOf_snoc]
    exact h.path
  · intro t b hb
    rcases List.mem_append.1 hb with hb | hb
    · exact h.past t b hb
    · obtain ⟨rfl, -⟩ : t = c.now ∧ b = a := by simpa using hb
      exact le_rfl
  · intro m hm
    obtain ⟨hp, hlen, hheard⟩ := h.moving m hm
    exact ⟨hp.append _, hlen, List.mem_append_left _ hheard⟩
  · intro q' t hq' ht
    obtain rfl : q = q' := Option.some.inj (hq.symm.trans hq')
    rcases List.mem_append.1 ht with ht | ht
    · exact h.order q t hq' ht
    · obtain ⟨-, rfl⟩ : t = c.now ∧ q = a := by simpa using ht
      exact absurd rfl hne
  · exact h.valid.snoc trivial

/-- The path itself is heard. -/
theorem Sound.heardPath (h : Sound c.self c.now) {q : Addr} (hq : c.self.path = some q) :
    Sound ((c.mark (.heard c.now q)).upd fun g => { g with pathHeard := c.now }).self c.now := by
  refine ⟨h.token, h.peer, h.known, ?_, ?_, ?_, ?_, ?_⟩
  · simp only [Punch.mark, Punch.upd, pathOf_snoc]
    exact h.path
  · intro t b hb
    rcases List.mem_append.1 hb with hb | hb
    · exact h.past t b hb
    · obtain ⟨rfl, -⟩ : t = c.now ∧ b = q := by simpa using hb
      exact le_rfl
  · intro m hm
    obtain ⟨hp, hlen, hheard⟩ := h.moving m hm
    exact ⟨hp.append _, hlen, List.mem_append_left _ hheard⟩
  · intro q' t _ ht
    refine .inl ?_
    rcases List.mem_append.1 ht with ht | ht
    · exact h.past t q' ht
    · obtain ⟨rfl, -⟩ : t = c.now ∧ q' = q := by simpa using ht
      exact le_rfl
  · exact h.valid.snoc trivial

/-- A new address on probation, or one heard again. -/
theorem Sound.onProbation (h : Sound c.self c.now) {m : Moving} (hp : Probed c.self.log m.addr m.challenge)
    (hlen : m.challenge.length = 8) (hheard : m.heard = c.now) (hmark : .heard c.now m.addr ∈ c.self.log) :
    Sound (c.upd fun g => { g with moving := some m }).self c.now := by
  refine ⟨h.token, h.peer, h.known, h.path, h.past, fun m' hm' => ?_, fun q t hq ht => .inr fun m' hm' => ?_,
    h.valid⟩
  · obtain rfl : m = m' := Option.some.inj hm'
    exact ⟨hp, hlen, hheard ▸ hmark⟩
  · obtain rfl : m = m' := Option.some.inj hm'
    rw [hheard]
    exact h.past t q ht

theorem isProbe_probeOf {g : Negotiation} {t ch : Bytes} (ht : g.peerToken = some t) (htl : t.length = TOKEN)
    (hg : g.token.length = TOKEN) (hch : ch.length = 8) : IsProbe (g.probeOf ch) ch := by
  unfold IsProbe Negotiation.probeOf
  rw [ht]
  refine ⟨?_, rfl, ?_⟩
  · simp [htl, hg, hch, PROBE_BYTES]
    omega
  · rw [List.drop_append_of_le_length (by simp [htl, hg]; omega)]
    have hz : (([TYPE_PROBE] ++ (some t).getD [] ++ g.token).drop (1 + 2 * TOKEN)) = [] := by
      apply List.drop_eq_nil_of_le
      simp [htl, hg]
      omega
    rw [hz, List.nil_append]

theorem Sound.challengeMove (h : Sound c.self c.now) (hpath : c.self.path ≠ none) {m : Moving}
    (hlen : m.challenge.length = 8) (hheard : m.heard = c.now) (hmark : .heard c.now m.addr ∈ c.self.log) :
    Sound (c.challengeMove m).self c.now := by
  obtain ⟨t, ht⟩ := Option.ne_none_iff_exists'.1 (h.known hpath)
  have hprobe := isProbe_probeOf ht (h.peer t ht) h.token hlen
  have hsent := h.quiet (Quiet.sendto c.self.socket m.addr (c.self.probeOf m.challenge) c)
  refine hsent.onProbation (c := c.sendto c.self.socket m.addr (c.self.probeOf m.challenge))
    (m := { m with sentAt := c.now }) ?_ hlen hheard (List.mem_append_left _ hmark)
  exact ⟨c.self.socket, _, List.mem_append_right _ (List.mem_singleton.2 rfl), hprobe⟩

theorem Sound.probeMove (h : Sound c.self c.now) (hpath : c.self.path ≠ none) {a : Addr}
    (hmark : .heard c.now a ∈ c.self.log) : Sound (c.probeMove a).self c.now := by
  unfold Punch.probeMove
  split
  · exact h
  · split
    · rename_i m hfilter
      obtain ⟨hm, ha⟩ := Option.filter_eq_some_iff.1 hfilter
      obtain rfl : m.addr = a := by simpa using ha
      obtain ⟨hp, hlen, -⟩ := h.moving m hm
      simp only
      split
      · exact h.onProbation (m := { m with heard := c.now }) hp hlen rfl hmark
      · exact h.challengeMove hpath (m := { m with heard := c.now }) hlen rfl hmark
    · unfold Punch.fresh
      split
      · rename_i heq
        split at heq
        · obtain ⟨-, rfl⟩ := Prod.mk.inj heq
          exact h.quiet (Quiet.upd (by simp) c)
        · simp at heq
      · rename_i ch c' heq
        split at heq
        · simp at heq
        · rename_i hroom
          obtain ⟨hch, rfl⟩ := Prod.mk.inj heq
          obtain rfl := Option.some.inj hch
          have hs := h.quiet (Quiet.upd (f := fun g => { g with spareAt := g.spareAt + 8 }) (by simp) c)
          refine hs.challengeMove (m := ⟨a, _, 0, c.now⟩) hpath ?_ rfl hmark
          simp only [List.length_take, List.length_drop]
          omega

theorem probeMove_now (a : Addr) (c : Punch) : (c.probeMove a).now = c.now := by
  unfold Punch.probeMove Punch.fresh Punch.challengeMove
  split
  · rfl
  · split
    · simp only
      split <;> rfl
    · split
      · rename_i heq
        split at heq
        · obtain ⟨-, rfl⟩ := Prod.mk.inj heq
          rfl
        · simp at heq
      · rename_i heq
        split at heq
        · simp at heq
        · obtain ⟨-, rfl⟩ := Prod.mk.inj heq
          rfl

theorem Sound.onStream (h : Sound c.self c.now) (a : Addr) (fx : Fx) :
    Sound (c.onStream a fx).self (c.onStream a fx).now := by
  unfold Punch.onStream
  split
  · exact h
  · rename_i q hq
    simp only
    refine Sound.quiet ?_ (Quiet.closeIf _ _)
    split
    · rename_i ha
      subst ha
      exact h.heardPath hq
    · rename_i hne
      have hheard := h.heard hq hne
      have hnow := probeMove_now a (c.mark (.heard c.now a))
      rw [hnow]
      refine Sound.probeMove (c := c.mark (.heard c.now a)) hheard ?_
        (List.mem_append_right _ (List.mem_singleton.2 rfl))
      simp [Punch.mark, Punch.upd, hq]

/-- An answer comes in: the challenges it may answer are as before. -/
theorem Sound.echo (h : Sound c.self c.now) (a : Addr) (ch : Bytes) :
    Sound (c.mark (.echo a ch)).self c.now := by
  refine ⟨h.token, h.peer, h.known, ?_, ?_, ?_, ?_, ?_⟩
  · simp only [Punch.mark, Punch.upd, pathOf_snoc]
    exact h.path
  · intro t b hb
    exact h.past t b (by simpa [Punch.mark, Punch.upd] using hb)
  · intro m hm
    obtain ⟨hp, hlen, hheard⟩ := h.moving m hm
    exact ⟨hp.append _, hlen, List.mem_append_left _ hheard⟩
  · intro q t hq ht
    exact h.order q t hq (by simpa [Punch.mark, Punch.upd] using ht)
  · exact h.valid.snoc trivial

/-- The path moves only to the address challenged, heard no earlier. -/
theorem Sound.moved (h : Sound c.self c.now) {a : Addr} {ch : Bytes} (hpath : c.self.path ≠ none)
    (hecho : ∃ b, c.self.log = b ++ [.echo a ch]) : Sound (c.moved a ch).self c.now := by
  unfold Punch.moved
  split
  · exact h
  · rename_i m hm
    split
    · exact h
    · rename_i hguard
      obtain ⟨ha, hheard⟩ := not_or.1 hguard
      obtain rfl := not_not.1 ha
      split
      · exact h
      · rename_i hch
        obtain rfl := not_not.1 hch
        obtain ⟨hp, -, hmark⟩ := h.moving m hm
        obtain ⟨old, hold⟩ := Option.ne_none_iff_exists'.1 hpath
        have hok : PathOk c.self.log (.moved m.addr m.challenge) := by
          refine ⟨hecho, hp, old, h.path ▸ hold, fun t ht => ⟨m.heard, ?_, hmark⟩⟩
          rcases h.order old t hold ht with hle | hle
          · exact hle.trans (not_lt.1 hheard)
          · exact hle m hm
        refine ⟨h.token, h.peer, fun _ => h.known hpath, ?_, ?_, ?_, ?_, ?_⟩
        · simp [Punch.mark, Punch.upd]
        · intro t b hb
          exact h.past t b (by simpa [Punch.mark, Punch.upd] using hb)
        · intro m' hm'
          simp [Punch.mark, Punch.upd] at hm'
        · intro q t _ _
          exact .inr fun m' hm' => by simp [Punch.mark, Punch.upd] at hm'
        · exact h.valid.snoc hok

theorem moved_now (a : Addr) (ch : Bytes) (c : Punch) : (c.moved a ch).now = c.now := by
  unfold Punch.moved
  repeat' split
  all_goals rfl

/-- The path is taken; `hp` is what the code does not check. -/
theorem Sound.choose (h : Sound c.self c.now) (id : Nat) {a : Addr} (fx : Fx)
    (hecho : ∃ b, c.self.log = b ++ [.echo a c.self.challenge])
    (hp : c.self.path = none → Probed c.self.log a c.self.challenge) :
    Sound (c.choose id a fx).self (c.choose id a fx).now := by
  unfold Punch.choose
  split
  · exact h
  · rename_i hguard
    obtain ⟨hnone, hknown⟩ := not_or.1 hguard
    have hnone := not_not.1 hnone
    simp only
    refine Sound.quiet ?_ ((Quiet.keepOnly id _).trans ((Quiet.stopPunching _).trans (Quiet.closeIf _ _)))
    have hok : PathOk c.self.log (.took a c.self.challenge) := ⟨hecho, hp hnone, h.path ▸ hnone⟩
    have hpast : ∀ t b, .heard t b ∈ c.self.log ++ [.took a c.self.challenge] ++ [.heard c.now a] → t ≤ c.now := by
      intro t b hb
      rcases List.mem_append.1 hb with hb | hb
      · exact h.past t b (by simpa using hb)
      · obtain ⟨rfl, -⟩ : t = c.now ∧ b = a := by simpa using hb
        exact le_rfl
    refine ⟨h.token, h.peer, fun _ => hknown, ?_, hpast, ?_, ?_, (h.valid.snoc hok).snoc trivial⟩
    · show some a = pathOf (c.self.log ++ [.took a c.self.challenge] ++ [.heard c.now a])
      rw [pathOf_snoc, pathOf_snoc]
    · intro m hm
      obtain ⟨hpr, hlen, hheard⟩ := h.moving m hm
      exact ⟨(hpr.append _).append _, hlen, List.mem_append_left _ (List.mem_append_left _ hheard)⟩
    · intro q t _ ht
      exact .inl (hpast t q ht)

/-- What the code leaves to the sender of an answer: while there is no path, one that echoes
the negotiation's challenge comes from an address it probed. -/
def Answered (g : Negotiation) (p : Bytes) (a : Addr) : Prop :=
  g.dead = false → g.path = none → isStun p = false → p.headD 0 = TYPE_PROBE_ACK → p.length = PROBE_ACK_BYTES →
    (p.drop 1).take TOKEN = g.token → p.drop (1 + TOKEN) = g.challenge → Probed g.log a g.challenge

theorem Sound.onPacket (h : Sound c.self c.now) (id : Nat) (p : Bytes) (a : Addr) (fx : Fx)
    (hans : Answered c.self p a) : Sound (c.onPacket id p a fx).self (c.onPacket id p a fx).now := by
  unfold Punch.onPacket
  split
  · exact h
  rename_i halive
  split
  · exact h.quiet (Quiet.onStun p fx c)
  rename_i hstun
  split
  · exact h
  rename_i htok
  split
  · exact h.onProbe id p a fx
  split
  · rename_i hack
    unfold Punch.onProbeAck
    split
    · exact h
    · rename_i hlen
      have hecho := h.echo a (p.drop (1 + TOKEN))
      simp only
      split
      · rename_i hpath
        rw [moved_now]
        exact Sound.moved (c := c.mark (.echo a (p.drop (1 + TOKEN)))) hecho hpath ⟨c.self.log, rfl⟩
      · split
        · rename_i hch
          refine Sound.choose (c := c.mark (.echo a (p.drop (1 + TOKEN)))) hecho id fx ⟨c.self.log, ?_⟩ fun hn => ?_
          · show c.self.log ++ [_] = c.self.log ++ [_]
            rw [hch]
            rfl
          · have halive' : c.self.dead = false := by
              simpa using (not_or.1 halive).1
            have htok' : (p.drop 1).take TOKEN = c.self.token := by
              simpa using (not_or.1 htok).2
            have := hans halive' hn (by simpa using hstun) hack (not_not.1 hlen) htok' hch
            exact this.append _
        · exact hecho
  · exact h.onStream a fx

theorem sound_create (offer : Bool) (stun : List Addr) (socket : Nat) {b : Bytes}
    (hb : b.length = 2 * TOKEN + 12 * stun.length + SPARE) (now : ℚ) :
    Sound (Negotiation.create offer stun socket b) now := by
  refine ⟨?_, ?_, ?_, rfl, ?_, ?_, ?_, ?_⟩
  · simp only [Negotiation.create, List.length_take, hb]
    simp [TOKEN]
    omega
  · intro t ht
    simp [Negotiation.create] at ht
  · intro hn
    exact absurd rfl hn
  · intro t a ha
    simp [Negotiation.create] at ha
  · intro m hm
    simp [Negotiation.create] at hm
  · intro q t hq
    simp [Negotiation.create] at hq
  · intro a m d hd
    simp [Negotiation.create] at hd

end Sound

/-! ### Every run -/

namespace UdpNode

variable {s : UdpNode}

/-- Every negotiation of the node is sound. -/
def AllSound (s : UdpNode) : Prop := ∀ g ∈ s.negs, Sound g s.now

theorem AllSound.onNeg (h : AllSound s) (n : Nat) {f : Punch → Punch}
    (hf : ∀ g, s.negs[n]? = some g → Sound (f ⟨g, s.sockets, n, s.now⟩).self s.now) :
    AllSound (s.onNeg n f) := by
  unfold UdpNode.onNeg
  split
  · exact h
  · rename_i g hg
    intro x hx
    rcases List.mem_or_eq_of_mem_set hx with hx | rfl
    · exact h x hx
    · exact hf g hg

theorem AllSound.quiet (h : AllSound s) (n : Nat) {f : Punch → Punch} (hf : ∀ c, Quiet c (f c)) :
    AllSound (s.onNeg n f) :=
  h.onNeg n fun g hg => by
    have hq := hf ⟨g, s.sockets, n, s.now⟩
    have hs := Sound.quiet (c := ⟨g, s.sockets, n, s.now⟩) (h g (List.mem_of_getElem? hg)) hq
    rwa [hq.now] at hs

/-- Each answer that reaches a negotiation without a path comes from an address it probed. -/
def AnsweredEvent (s : UdpNode) : UdpEvent → Prop
  | .packet id p a _ => ∀ n g, s.sockets.listeners.get id = some n → s.negs[n]? = some g → Answered g p a
  | _ => True

/-- No time passes in a call. -/
theorem onPacket_now (id : Nat) (p : Bytes) (a : Addr) (fx : Fx) (c : Punch) :
    (c.onPacket id p a fx).now = c.now := by
  unfold Punch.onPacket
  split
  · rfl
  split
  · exact (Quiet.onStun p fx c).now
  split
  · rfl
  split
  · unfold Punch.onProbe
    split
    · rfl
    · exact (((Quiet.sendto id a _ _).trans (Quiet.ite (Quiet.sendto id a _ _) (Quiet.refl _))).trans
        (Quiet.addPeer a _ _)).now
  split
  · unfold Punch.onProbeAck Punch.choose
    split
    · rfl
    · simp only
      split
      · exact moved_now _ _ _
      · split
        · split
          · rfl
          · exact ((Quiet.keepOnly id _).trans ((Quiet.stopPunching _).trans (Quiet.closeIf _ _))).now
        · rfl
  · unfold Punch.onStream
    split
    · rfl
    · refine (Quiet.closeIf _ _).now.trans ?_
      split
      · rfl
      · exact probeMove_now _ _

theorem description_now (token : Option Bytes) (fx : Fx) (c : Punch) : (c.description token fx).now = c.now := by
  unfold Punch.description
  split
  · rfl
  · split
    · exact (Quiet.close c).now
    · exact (Quiet.probe _ (c.upd _)).now

theorem AllSound.negEvent (h : AllSound s) (n : Nat) (e : NegEvent) : AllSound (s.negEvent n e) := by
  cases e with
  | start fx =>
    exact h.quiet n fun c => Quiet.ite (Quiet.refl c) (Quiet.start fx c)
  | close => exact h.quiet n Quiet.close
  | description token fx =>
    refine h.onNeg n fun g hg => ?_
    have hs := Sound.description (c := ⟨g, s.sockets, n, s.now⟩) (h g (List.mem_of_getElem? hg)) token fx
    rwa [description_now] at hs
  | candidate a fx => exact h.quiet n fun c => Quiet.candidate a fx c
  | extraBound r =>
    simp only [UdpNode.negEvent]
    split
    · split
      · exact h.quiet n fun c => Quiet.extraBound none c
      · split
        · exact AllSound.quiet (s := s.bound _) h n fun c => Quiet.extraBound _ c
        · exact h
    · exact h
  | refilled b => exact h.quiet n fun c => Quiet.refilled b c
  | wake fx => exact h.quiet n fun c => Quiet.ite (Quiet.onWake fx c) (Quiet.refl c)

theorem AllSound.step (h : AllSound s) {e : UdpEvent} (he : AnsweredEvent s e) : AllSound (s.step e) := by
  cases e with
  | openCall offer stun => exact h
  | openBound o r =>
    simp only [UdpNode.step, UdpNode.openBound]
    split
    · exact h
    · split
      · split
        · exact h
        · split <;> exact h
      · exact h
  | openDrawn o entropy =>
    simp only [UdpNode.step, UdpNode.openDrawn]
    split
    · exact h
    · split
      · split
        · exact h
        · rename_i b hb
          have hlen := (Option.filter_eq_some_iff.1 hb).2
          intro g hg
          rcases List.mem_append.1 hg with hg | hg
          · exact h g hg
          · rw [List.mem_singleton.1 hg]
            exact sound_create _ _ _ (by simpa using hlen) _
      · exact h
  | neg n e => exact h.negEvent n e
  | packet id p a fx =>
    simp only [UdpNode.step]
    split
    · exact h
    · rename_i n hn
      refine h.onNeg n fun g hg => ?_
      have hs := Sound.onPacket (c := ⟨g, s.sockets, n, s.now⟩) (h g (List.mem_of_getElem? hg)) id p a fx (he n g hn hg)
      rwa [onPacket_now] at hs
  | elapse ms =>
    intro g hg
    have hg := h g hg
    refine { hg with past := fun t a ht => (hg.past t a ht).trans ?_ }
    simp [UdpNode.step]

/-- Every event of a run finds the answers it brings as they must be. -/
def AnsweredAll : UdpNode → List UdpEvent → Prop
  | _, [] => True
  | s, e :: evs => AnsweredEvent s e ∧ AnsweredAll (s.step e) evs

theorem AllSound.run (h : AllSound s) {evs : List UdpEvent} (hevs : AnsweredAll s evs) : AllSound (s.run evs) := by
  induction evs generalizing s with
  | nil => exact h
  | cons e evs ih => exact ih (h.step hevs.1) hevs.2

/-- When every answer that finds no path comes from an address that was probed: a negotiation's
path is the one it last took or moved to; it took or moved there on the echo of a challenge, that
came from that address and had been sent there; it takes a path only while it has none; and it
moves only to an address heard no earlier than the one it leaves. -/
theorem paths_validated (evs : List UdpEvent) (h : AnsweredAll create evs) :
    ∀ g ∈ (create.run evs).negs, g.path = pathOf g.log ∧ Validated g.log := fun g hg =>
  have hs := AllSound.run (s := create) (fun g hg => by simp [create] at hg) h g hg
  ⟨hs.path, hs.valid⟩

/-! ### An answer from elsewhere -/

def still : Fx := ⟨false, fun _ => 0⟩

def zeros : Bytes := List.replicate 8 0

/-- Where the peer's candidate is, and where it is not. -/
def near : Addr := ⟨"10.0.0.1", 4000⟩
def far : Addr := ⟨"10.0.0.2", 4000⟩

/-- A negotiation that knows its peer's token and one candidate, and has probed it. -/
def probing : List UdpEvent :=
  [.openCall true [], .openBound (.binding true []) (some 5),
    .openDrawn (.drawing true [] 5) (some (List.replicate 80 0)), .neg 0 (.start still),
    .neg 0 (.description (some zeros) still), .neg 0 (.candidate (some near) still)]

/-- An answer to the probe. -/
def ack : Bytes := TYPE_PROBE_ACK :: (zeros ++ zeros)

def probeOfZeros : Bytes := TYPE_PROBE :: (zeros ++ zeros ++ zeros)

/-- The answer comes from an address that was never probed, and is the path. -/
theorem unprobed_path_taken :
    ¬∀ g ∈ (create.run (probing ++ [.packet 5 ack far still])).negs, g.path = pathOf g.log ∧ Validated g.log := by
  have hlog : (create.run (probing ++ [.packet 5 ack far still])).negs.map (·.log) =
      [[.sent 5 near probeOfZeros, .echo far zeros, .took far zeros, .heard 0 far]] := by
    decide +kernel
  intro h
  generalize (create.run (probing ++ [.packet 5 ack far still])).negs = negs at h hlog
  obtain ⟨g, rfl, hg⟩ := List.map_eq_singleton_iff.1 hlog
  have hok := (h g (by simp)).2 [.sent 5 near probeOfZeros, .echo far zeros] (.took far zeros) [.heard 0 far] hg
  obtain ⟨-, ⟨id, p, hm, -⟩, -⟩ := hok
  simp [near, far] at hm

theorem probed_near : ∀ g, (create.run probing).negs[0]? = some g →
    Probed g.log near g.challenge := by
  have hlog : (create.run probing).negs[0]?.map (fun g => (g.log, g.challenge)) =
      some ([.sent 5 near probeOfZeros], zeros) := by
    decide +kernel
  intro g hg
  rw [hg] at hlog
  obtain ⟨hl, hc⟩ := Prod.mk.inj (Option.some.inj hlog)
  rw [hl, hc]
  exact ⟨5, probeOfZeros, by simp, by unfold IsProbe; decide⟩

theorem paths_validated_near :
    (create.run (probing ++ [.packet 5 ack near still])).negs.length = 1 ∧
      ∀ g ∈ (create.run (probing ++ [.packet 5 ack near still])).negs,
        g.path = pathOf g.log ∧ Validated g.log := by
  refine ⟨by decide +kernel, paths_validated (probing ++ [.packet 5 ack near still]) ?_⟩
  simp only [probing, List.cons_append, List.nil_append, AnsweredAll, AnsweredEvent, true_and, and_true]
  intro n g hn hg
  have h0 : (create.run probing).sockets.listeners.get 5 = some 0 := by
    decide +kernel
  obtain rfl : n = 0 := Option.some.inj (hn.symm.trans h0)
  exact fun _ _ _ _ _ _ _ => probed_near g hg

end UdpNode

end SeedTransport
