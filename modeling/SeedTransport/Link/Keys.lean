import SeedTransport.Link.Run

set_option autoImplicit false

namespace SeedTransport

/-! What a link's keys come to once its hash is free of collisions: each has one label, no two chains meet, and
no key and nonce seal twice. -/

/-! ### The hash -/

/-- One answer to a message, and no answer to two. -/
structure Hashes (log : List Mark) : Prop where
  same : ∀ x y y', Answers log (.hash x) y → Answers log (.hash x) y' → y = y'
  apart : ∀ x x' y, Answers log (.hash x) y → Answers log (.hash x') y → x = x'

def keyLabels : List Bytes := handshakeLabels ++ recordLabels

/-- No label ends another. -/
theorem label_suffix : ∀ l ∈ keyLabels, ∀ l' ∈ keyLabels, l <:+ l' → l = l' := by
  decide

theorem label_apart {l l' x x' : Bytes} (hl : l ∈ keyLabels) (hl' : l' ∈ keyLabels) (h : x ++ l = x' ++ l') :
    l = l' := by
  have h1 : l <:+ x' ++ l' := ⟨x, h⟩
  have h2 : l' <:+ x' ++ l' := ⟨x', rfl⟩
  obtain hle | hle := Nat.le_total l.length l'.length
  · exact label_suffix l hl l' hl' (List.suffix_of_suffix_length_le h1 h2 hle)
  · exact (label_suffix l' hl' l hl (List.suffix_of_suffix_length_le h2 h1 hle)).symm

section Keys

variable {log : List Mark} {l l' k s s' : Bytes} {e e' : Nat}

/-- A key has one label. -/
theorem Hashes.label (h : Hashes log) (hl : l ∈ keyLabels) (hl' : l' ∈ keyLabels) (hk : Keyed log l k)
    (hk' : Keyed log l' k) : l = l' := by
  obtain ⟨x, hx⟩ := hk
  obtain ⟨x', hx'⟩ := hk'
  exact label_apart hl hl' (h.apart _ _ _ hx hx')

theorem rekey_mem : LABEL_REKEY ∈ keyLabels := by simp [keyLabels, recordLabels]

/-- A session's own keys: no ratchet gives one. -/
def SessionKey (log : List Mark) (k : Bytes) : Prop :=
  ∃ l ∈ [LABEL_I2R, LABEL_R2I], Keyed log l k

theorem session_labels : ∀ l ∈ [LABEL_I2R, LABEL_R2I], l ∈ keyLabels ∧ l ≠ LABEL_REKEY := by decide

theorem SessionKey.longer {log' : List Mark} (hs : log ⊆ log') (h : SessionKey log k) : SessionKey log' k := by
  obtain ⟨l, hl, hk⟩ := h
  exact ⟨l, hl, hk.longer hs⟩

theorem Hashes.unratcheted (h : Hashes log) (hk : SessionKey log k) {x : Bytes}
    (hx : Answers log (.hash (x ++ LABEL_REKEY)) k) : False := by
  obtain ⟨l, hl, hkl⟩ := hk
  obtain ⟨hmem, hne⟩ := session_labels l hl
  exact hne (h.label hmem rekey_mem hkl ⟨x, hx⟩)

/-- Two chains that meet are one, at the same epoch. -/
theorem Hashes.meet (h : Hashes log) (hs : SessionKey log s) (hs' : SessionKey log s') (hk : KeyChain log s e k)
    (hk' : KeyChain log s' e' k) : s = s' ∧ e = e' := by
  induction hk generalizing e' with
  | zero =>
    cases hk' with
    | zero => exact ⟨rfl, rfl⟩
    | succ _ hash => exact (h.unratcheted hs hash).elim
  | succ _ hash ih =>
    cases hk' with
    | zero => exact (h.unratcheted hs' hash).elim
    | succ hprev hash' =>
      have hx := List.append_cancel_right (h.apart _ _ _ hash hash')
      subst hx
      obtain ⟨rfl, rfl⟩ := ih hprev
      exact ⟨rfl, rfl⟩

/-- A session's two keys have their own labels. -/
theorem SessionLaw.keys {sp : Spec} {own p r : Bytes} {t : Option Bytes} (h : SessionLaw sp own log p t s r) :
    ∃ ls ∈ [LABEL_I2R, LABEL_R2I], ∃ lr ∈ [LABEL_I2R, LABEL_R2I], ls ≠ lr ∧ Keyed log ls s ∧ Keyed log lr r := by
  have hne : LABEL_I2R ≠ LABEL_R2I := by decide
  have hi : LABEL_I2R ∈ [LABEL_I2R, LABEL_R2I] := List.mem_cons_self
  have hr : LABEL_R2I ∈ [LABEL_I2R, LABEL_R2I] := List.mem_cons_of_mem _ List.mem_cons_self
  obtain ⟨-, d, hd, -, -, rfl, rfl⟩ | ⟨-, a, ha, -, -, rfl, rfl⟩ := h
  · exact ⟨_, hi, _, hr, hne, ⟨_, hd.i2r⟩, ⟨_, hd.r2i⟩⟩
  · exact ⟨_, hr, _, hi, hne.symm, ⟨_, ha.r2i⟩, ⟨_, ha.i2r⟩⟩

/-- A link's directions have different keys. -/
theorem Hashes.directions (h : Hashes log) {sp : Spec} {own p r : Bytes} {t : Option Bytes}
    (hs : SessionLaw sp own log p t s r) : SessionKey log s ∧ SessionKey log r ∧ s ≠ r := by
  obtain ⟨ls, hls, lr, hlr, hne, hks, hkr⟩ := hs.keys
  refine ⟨⟨ls, hls, hks⟩, ⟨lr, hlr, hkr⟩, fun he => hne ?_⟩
  rw [← he] at hkr
  exact h.label (session_labels ls hls).1 (session_labels lr hlr).1 hks hkr

end Keys

theorem handshake_mem {l : Bytes} (h : l ∈ handshakeLabels) : l ∈ keyLabels := List.mem_append_left _ h

theorem record_mem {l : Bytes} (h : l ∈ recordLabels) : l ∈ keyLabels := List.mem_append_right _ h

theorem labels_disjoint : ∀ l ∈ handshakeLabels, ∀ l' ∈ recordLabels, l ≠ l' := by decide

/-! ### A run of two links

A host that answers as a real one does, at no strength: the hash is a polynomial one, the cipher adds a tag to the
plain text, keys are their own halves. -/

def toyHash (x : Bytes) : Bytes :=
  let h := x.foldl (fun h b => (h * 257 + b.toNat + 1) % 2 ^ 256) 0
  (List.range 32).map fun i => UInt8.ofNat (h / 256 ^ i)

def toyTag (k n p : Bytes) : Bytes := (toyHash (k ++ n ++ p)).take TAG_LEN

def toyHost (seed : UInt8) : Call → Bytes
  | .hash x => toyHash x
  | .random n => List.replicate n seed
  | .dh sk pk => 1 :: if pk = X25519_BASEPOINT then sk else List.zipWith (· + ·) sk pk
  | .kemKeypair _ => List.replicate KEM_PK_LEN seed ++ List.replicate KEM_SK_LEN seed
  | .kemEncaps _ coins => 1 :: (coins ++ List.replicate (KEM_CT_LEN - coins.length) 0 ++ coins)
  | .kemDecaps _ ct => 1 :: ct.take KEM_SS_LEN
  | .aeadSeal k n p => p ++ toyTag k n p
  | .aeadOpen k n ct =>
    let p := ct.take (ct.length - TAG_LEN)
    if ct = p ++ toyTag k n p then 1 :: p else [0]
  | .sign m => toyHash m ++ toyHash m
  | .verify _ sig m => [if sig = toyHash m ++ toyHash m then 1 else 0]
  | _ => []

namespace LinkMachine

def feed (i : Input) (m : LinkMachine) : LinkMachine := Link.system.step m (.input i)

/-- Work on until the chain is empty. -/
def play (host : Call → Bytes) : Nat → LinkMachine → LinkMachine
  | 0, m => m
  | n + 1, m =>
    match m.waiting with
    | some (c, _) => play host n (Link.system.step m (.resume (some (host c))))
    | none => if m.world.work.isEmpty then m else play host n (Link.system.step m .start)

def written (m : LinkMachine) : List Bytes := m.world.marks.filterMap fun
  | .asked (.wire b) => some b
  | _ => none

theorem Reachable.step {m : LinkMachine} (h : m.Reachable) (e : LinkEvent) :
    LinkMachine.Reachable (Link.system.step m e) := by
  obtain ⟨node, spec, realm, granted, evs, hl, rfl⟩ := h
  refine ⟨node, spec, realm, granted, evs ++ [e], hl, ?_⟩
  simp [Async.System.run]

theorem Reachable.feed {m : LinkMachine} (h : m.Reachable) (i : Input) : (m.feed i).Reachable := h.step (.input i)

theorem Reachable.play {m : LinkMachine} (h : m.Reachable) (host : Call → Bytes) (n : Nat) :
    (m.play host n).Reachable := by
  induction n generalizing m with
  | zero => exact h
  | succ n ih =>
    unfold LinkMachine.play
    split
    · exact ih (h.step _)
    · split
      · exact h
      · exact ih (h.step .start)

end LinkMachine

def toyNode (own : UInt8) : Node where
  ownPk := List.replicate PK_LEN own
  maxFrameBytes := 4096
  maxPreAuthQueueSlices := 16
  maxVerified := 4
  maxAuthed := 4
  handshakeTimeoutMs := 1000
  unverifiedTimeoutMs := 1000
  admitPeers := none

/-- A dialer of node 2, or an accept with two secrets; either ratchets behind every record. -/
def toySpec (dials : Bool) : Spec where
  weDialed := dials
  dialedPeerId := if dials then List.replicate PK_LEN 2 else []
  acceptPeerId := none
  linkSecret := if dials then some [9] else none
  acceptSecrets := .own [[8], [9]]
  networkKey := [1]
  lint := false
  idleMs := 0
  rekeyAfterFrames := 1
  framerGoodbye := false
  limited := false

namespace Toy

open LinkMachine

def begin (own : UInt8) (dials : Bool) : LinkMachine :=
  play (toyHost own) 40 (start (toyNode own) (toySpec dials) ⟨[], none, [], .absent, 0⟩ true)

/-- The dialer's first message at the acceptor. -/
def answering : LinkMachine :=
  play (toyHost 2) 60 (feed (.deliver ((written (begin 1 true)).getD 0 [])) (begin 2 false))

/-- A frame is sent before the handshake is over, one behind it, and the dialer closes. -/
def dialer : LinkMachine :=
  play (toyHost 1) 60 (feed .close (feed (.send [7])
    (play (toyHost 1) 60 (feed (.deliver ((written answering).getD 0 [])) (feed (.send [6]) (begin 1 true))))))

def acceptor : LinkMachine :=
  play (toyHost 2) 90 (((written dialer).drop 1).foldl (fun m b => feed (.deliver b) m) answering)

theorem begin_reachable (own : UInt8) (dials : Bool) : (begin own dials).Reachable := by
  refine Reachable.play ⟨toyNode own, toySpec dials, _, true, [], ⟨le_rfl, ?_⟩, rfl⟩ _ _
  exact Nat.one_le_two_pow

theorem feeds_reachable {m : LinkMachine} (h : m.Reachable) (bs : List Bytes) :
    (bs.foldl (fun m b => feed (.deliver b) m) m).Reachable := by
  induction bs generalizing m with
  | nil => exact h
  | cons b bs ih => exact ih (h.feed _)

theorem answering_reachable : answering.Reachable := ((begin_reachable 2 false).feed _).play _ _

theorem dialer_reachable : dialer.Reachable :=
  (((((begin_reachable 1 true).feed _).feed _).play _ _).feed _ |>.feed _).play _ _

theorem acceptor_reachable : acceptor.Reachable := (feeds_reachable answering_reachable _).play _ _

end Toy

/-- The messages a log has hashed, with their answers. -/
def hashPairs (log : List Mark) : List (Bytes × Bytes) := log.filterMap fun
  | .done (.hash x) (some y) => some (x, y)
  | _ => none

theorem mem_hashPairs {log : List Mark} {x y : Bytes} : (x, y) ∈ hashPairs log ↔ Answers log (.hash x) y := by
  unfold hashPairs Answers
  rw [List.mem_filterMap]
  constructor
  · rintro ⟨m, hm, hr⟩
    split at hr
    · cases hr
      exact hm
    · cases hr
  · intro hm
    exact ⟨_, hm, rfl⟩

/-- The seals a log has asked for. -/
def sealsAsked (log : List Mark) : List (Bytes × Bytes × Bytes) := log.filterMap fun
  | .asked (.aeadSeal k n p) => some (k, n, p)
  | _ => none

theorem mem_sealsAsked {log : List Mark} {k n p : Bytes} (h : (k, n, p) ∈ sealsAsked log) :
    Mark.asked (.aeadSeal k n p) ∈ log := by
  unfold sealsAsked at h
  obtain ⟨m, hm, hr⟩ := List.mem_filterMap.mp h
  split at hr
  · cases hr
    exact hm
  · cases hr

def hashesCheck (pairs : List (Bytes × Bytes)) : Bool :=
  pairs.all fun p => pairs.all fun q => (p.1 == q.1) == (p.2 == q.2)

theorem hashes_of_check {log : List Mark} (h : hashesCheck (hashPairs log) = true) : Hashes log := by
  have hall : ∀ x y x' y', Answers log (.hash x) y → Answers log (.hash x') y' → (x = x' ↔ y = y') := by
    intro x y x' y' hx hx'
    have hp := List.all_eq_true.mp (List.all_eq_true.mp h _ (mem_hashPairs.mpr hx)) _ (mem_hashPairs.mpr hx')
    have hb := beq_iff_eq.mp hp
    simp only at hb
    constructor
    · rintro rfl
      simpa using hb.symm
    · rintro rfl
      simpa using hb
  exact ⟨fun x y y' hy hy' => (hall x y x y' hy hy').mp rfl, fun x x' y hy hy' => (hall x y x' y hy hy').mpr rfl⟩

theorem Hashes.of_subset {log log' : List Mark} (hs : log ⊆ log') (h : Hashes log') : Hashes log :=
  ⟨fun x y y' hy hy' => h.same x y y' (hy.longer hs) (hy'.longer hs),
    fun x x' y hy hy' => h.apart x x' y (hy.longer hs) (hy'.longer hs)⟩

theorem toy_hashes : Hashes (Toy.dialer.world.marks ++ Toy.acceptor.world.marks) := by
  refine hashes_of_check ?_
  decide +kernel

/-! ### Nonces -/

theorem writeU32BE_inj {v v' : Nat} (hv : v < 2 ^ 32) (hv' : v' < 2 ^ 32) (h : writeU32BE v = writeU32BE v') :
    v = v' := by
  have hr := congrArg (fun b => readU32BE (b ++ []) 0) h
  simp only [readU32BE_write] at hr
  omega

theorem nonce_inj {e e' c c' : Nat} (he : e < 2 ^ 32) (he' : e' < 2 ^ 32) (hc : c < 2 ^ 32) (hc' : c' < 2 ^ 32)
    (h : nonce e c = nonce e' c') : e = e' ∧ c = c' := by
  unfold nonce at h
  obtain ⟨hhead, hlast⟩ := List.append_inj h (by simp)
  obtain ⟨hfirst, -⟩ := List.append_inj hhead (by simp)
  exact ⟨writeU32BE_inj he he' hfirst, writeU32BE_inj hc hc' hlast⟩

/-- A seal that is asked for once another was answered has another key or another nonce. -/
theorem SealLaw.apart {log log' : List Mark} (hh : Hashes log') (hsub : log ⊆ log') {k n p k' n' p' ct : Bytes}
    (h : SealLaw log k' n' p') (hasked : Mark.asked (.aeadSeal k n p) ∈ log)
    (hdone : Mark.done (.aeadSeal k n p) (some ct) ∈ log) : ¬(k' = k ∧ n' = n) := by
  rintro ⟨rfl, rfl⟩
  obtain ⟨label, hl, -, hk, hothers⟩ | ⟨e, c, he, hc, hn, ⟨label, hl, hk⟩, -, hothers⟩ := h
  · obtain ⟨label', hl', hne, hk'⟩ := hothers _ _ _ hasked
    exact hne (hh.label (handshake_mem hl') (handshake_mem hl) (hk'.longer hsub) (hk.longer hsub))
  · obtain ⟨label', hl', hk'⟩ | ⟨e', c', he', hc', hn', hlt⟩ := hothers _ _ _ _ hdone
    · exact labels_disjoint label' hl' label hl
        (hh.label (handshake_mem hl') (record_mem hl) (hk'.longer hsub) (hk.longer hsub))
    · obtain ⟨rfl, rfl⟩ := nonce_inj he' he hc' hc (hn'.symm.trans hn)
      exact absurd hlt (lt_irrefl _)

namespace LinkMachine

variable {m : LinkMachine}

theorem Reachable.law_at (h : m.Reachable) {l₁ l₂ : List Mark} {x : Mark} (he : m.world.marks = l₁ ++ x :: l₂) :
    Law m.world.spec m.world.node.ownPk l₁ x := h.lawful l₁ x l₂ he

/-- No key and nonce seal two records: whatever calls come in between, a seal asked for behind one that was answered
has another key or another nonce, a nonce holds its epoch and counter without wrapping, and a handshake key is given
to the cipher once at most. -/
theorem seals_apart (h : m.Reachable) (hh : Hashes m.world.marks) :
    (∀ l₁ l₂ k n p ct k' n' p', m.world.marks = l₁ ++ .done (.aeadSeal k n p) (some ct) :: l₂ →
      Mark.asked (.aeadSeal k' n' p') ∈ l₂ → ¬(k' = k ∧ n' = n)) ∧
    (∀ k n p, Mark.asked (.aeadSeal k n p) ∈ m.world.marks →
      (n = ZERO_NPUB ∧ ∃ label ∈ handshakeLabels, Keyed m.world.marks label k) ∨
      ∃ e c ends, e < 2 ^ 32 ∧ c < 2 ^ 32 ∧ n = nonce e c ∧ Mark.seals ⟨e, c, some k⟩ p ends ∈ m.world.marks) ∧
    ∀ label ∈ handshakeLabels, ∀ l₁ l₂ k n p k' n' p', m.world.marks = l₁ ++ .asked (.aeadSeal k n p) :: l₂ →
      Keyed m.world.marks label k → Mark.asked (.aeadSeal k' n' p') ∈ l₂ → ¬Keyed m.world.marks label k' := by
  refine ⟨fun l₁ l₂ k n p ct k' n' p' he hm => ?_, fun k n p hm => ?_,
    fun label hl l₁ l₂ k n p k' n' p' he hk hm => ?_⟩
  · obtain ⟨a, b, rfl⟩ := List.append_of_mem hm
    have hat : m.world.marks =
        (l₁ ++ .done (.aeadSeal k n p) (some ct) :: a) ++ .asked (.aeadSeal k' n' p') :: b := by
      rw [he]
      simp
    have hasked : Mark.asked (.aeadSeal k n p) ∈ l₁ := h.law_at he
    have hdone : Mark.done (.aeadSeal k n p) (some ct) ∈ l₁ ++ .done (.aeadSeal k n p) (some ct) :: a := by simp
    refine (h.law_at hat).2.apart hh ?_ (List.mem_append_left _ hasked) hdone
    rw [hat]
    exact List.subset_append_left _ _
  · obtain ⟨l₁, hp, hlaw⟩ := h.lawful.of_mem hm
    obtain ⟨label, hl, hn, hk, -⟩ | ⟨e, c, he, hc, hn, -, ⟨ends, hlast⟩, -⟩ := hlaw.2
    · exact .inl ⟨hn, label, hl, hk.longer hp.subset⟩
    · exact .inr ⟨e, c, ends, he, hc, hn, hp.subset (List.mem_of_getLast? hlast)⟩
  · intro hk'
    obtain ⟨a, b, rfl⟩ := List.append_of_mem hm
    have hat : m.world.marks = (l₁ ++ .asked (.aeadSeal k n p) :: a) ++ .asked (.aeadSeal k' n' p') :: b := by
      rw [he]
      simp
    have hsub : (l₁ ++ .asked (.aeadSeal k n p) :: a) ⊆ m.world.marks := by
      rw [hat]
      exact List.subset_append_left _ _
    obtain ⟨label', hl', -, hkey, hothers⟩ | ⟨_, _, -, -, -, ⟨label', hl', hkey⟩, -⟩ := (h.law_at hat).2
    · obtain ⟨label'', hl'', hne, hkey'⟩ := hothers k n p (by simp)
      have h1 := hh.label (handshake_mem hl'') (handshake_mem hl) (hkey'.longer hsub) hk
      have h2 := hh.label (handshake_mem hl') (handshake_mem hl) (hkey.longer hsub) hk'
      exact hne (h1.trans h2.symm)
    · exact labels_disjoint label hl label' hl'
        (hh.label (handshake_mem hl) (record_mem hl') hk' (hkey.longer hsub))

theorem seals_apart_toy : ∃ k n p, Mark.asked (.aeadSeal k n p) ∈ Toy.dialer.world.marks ∧
    ((n = ZERO_NPUB ∧ ∃ label ∈ handshakeLabels, Keyed Toy.dialer.world.marks label k) ∨
      ∃ e c ends, e < 2 ^ 32 ∧ c < 2 ^ 32 ∧ n = nonce e c ∧
        Mark.seals ⟨e, c, some k⟩ p ends ∈ Toy.dialer.world.marks) := by
  have hseal : sealsAsked Toy.dialer.world.marks ≠ [] := by decide +kernel
  obtain ⟨⟨k, n, p⟩, hs⟩ := List.exists_mem_of_ne_nil _ hseal
  have hm := mem_sealsAsked hs
  exact ⟨k, n, p, hm, (seals_apart Toy.dialer_reachable
    (toy_hashes.of_subset (List.subset_append_left _ _))).2.1 k n p hm⟩

end LinkMachine

end SeedTransport
