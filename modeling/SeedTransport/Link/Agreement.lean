import SeedTransport.Link.Pair

set_option autoImplicit false

namespace SeedTransport

/-! What the two ends of a handshake agree on: who holds the peer's key answered this very handshake, and two links
with a key in common had one conversation. -/

/-- The widths of a host's answers, and a cipher that opens what it sealed. -/
structure Primitives (log : List Mark) : Prop where
  hash : ∀ x y, Answers log (.hash x) y → y.length = PK_LEN
  dh : ∀ sk pk y, Answers log (.dh sk pk) (1 :: y) → y.length = EPH_LEN
  sign : ∀ msg y, Answers log (.sign msg) y → y.length = SIG_LEN
  tagged : ∀ k n p ct, Answers log (.aeadSeal k n p) ct → ct.length = p.length + TAG_LEN
  opens : ∀ k n p p' ct, Answers log (.aeadSeal k n p) ct → Answers log (.aeadOpen k n ct) (1 :: p') → p' = p

/-- Every signature `log` took under `pk` was made by one of the links that have the key. -/
structure Keepers (log : List Mark) (pk : Bytes) (keepers : Set LinkMachine) : Prop where
  reachable : ∀ m ∈ keepers, m.Reachable
  hashes : ∀ m ∈ keepers, Hashes (log ++ m.world.marks)
  primitives : ∀ m ∈ keepers, Primitives (log ++ m.world.marks)
  signed : ∀ sig msg r, Answers log (.verify pk sig msg) (1 :: r) →
    ∃ m ∈ keepers, Mark.asked (.sign msg) ∈ m.world.marks

/-! ### The hash chain -/

theorem identity_apart {root th id root' th' id' : Bytes} (hr : root.length = root'.length)
    (ht : th.length = th'.length) (h : channelIdentityMessage root th id = channelIdentityMessage root' th' id') :
    root = root' ∧ th = th' ∧ id = id' := by
  unfold channelIdentityMessage at h
  rw [List.append_assoc, List.append_assoc, List.append_assoc, List.append_assoc] at h
  obtain ⟨rfl, h'⟩ := List.append_inj (List.append_cancel_left h) hr
  obtain ⟨rfl, rfl⟩ := List.append_inj h' ht
  exact ⟨rfl, rfl, rfl⟩

theorem contact_apart {root th id : Bytes} (hr : root.length = PK_LEN) :
    channelIdentityMessage root th id ≠ DOMAIN_CONTACT := by
  intro h
  have hl := congrArg List.length h
  have hc : DOMAIN_CHANNEL.length = 25 := by decide
  have hd : DOMAIN_CONTACT.length = 29 := by decide
  simp only [channelIdentityMessage, List.length_append, hr, hc, hd, PK_LEN] at hl
  omega

/-- A transcript hash has one transcript. -/
theorem Hashes.split {log : List Mark} {th th' x x' y : Bytes} (h : Hashes log)
    (hx : Answers log (.hash (th ++ x)) y) (hx' : Answers log (.hash (th' ++ x')) y) (hw : th.length = th'.length) :
    th = th' ∧ x = x' :=
  List.append_inj (h.apart _ _ _ hx hx') hw

/-! ### The run of two links -/

def primitivesCheck (log : List Mark) : Bool := log.all fun
  | .done (.hash _) (some y) => y.length == PK_LEN
  | .done (.dh _ _) (some y) => (Link.okTail y).all fun y => y.length == EPH_LEN
  | .done (.sign _) (some y) => y.length == SIG_LEN
  | .done (.aeadSeal k n p) (some ct) => ct.length == p.length + TAG_LEN && log.all fun
    | .done (.aeadOpen k' n' ct') (some y) =>
      !(k' == k && n' == n && ct' == ct) || (Link.okTail y).all fun p' => p' == p
    | _ => true
  | _ => true

theorem primitives_of_check {log : List Mark} (h : primitivesCheck log = true) : Primitives log where
  hash x y hy := by
    have := List.all_eq_true.mp h _ hy
    simpa using this
  dh sk pk y hy := by
    have := List.all_eq_true.mp h _ hy
    simpa [Link.okTail] using this
  sign msg y hy := by
    have := List.all_eq_true.mp h _ hy
    simpa using this
  tagged k n p ct hy := by
    have hm := List.all_eq_true.mp h _ hy
    rw [Bool.and_eq_true] at hm
    simpa using hm.1
  opens k n p p' ct hs ho := by
    have hm := List.all_eq_true.mp h _ hs
    rw [Bool.and_eq_true] at hm
    have hall := List.all_eq_true.mp hm.2 _ ho
    simpa [Link.okTail] using hall

theorem Primitives.of_subset {log log' : List Mark} (hs : log ⊆ log') (h : Primitives log') : Primitives log :=
  ⟨fun x y hy => h.hash x y (hy.longer hs), fun sk pk y hy => h.dh sk pk y (hy.longer hs),
    fun msg y hy => h.sign msg y (hy.longer hs), fun k n p ct hy => h.tagged k n p ct (hy.longer hs),
    fun k n p p' ct hy hy' => h.opens k n p p' ct (hy.longer hs) (hy'.longer hs)⟩

/-- Each signature a log took, another log was asked for. -/
def signedCheck (log keeper : List Mark) : Bool := log.all fun
  | .done (.verify _ _ msg) (some y) => (Link.okTail y).isNone || keeper.any (· == .asked (.sign msg))
  | _ => true

theorem keepers_of_check {log : List Mark} {pk : Bytes} {m : LinkMachine} (hr : m.Reachable)
    (hh : Hashes (log ++ m.world.marks)) (hp : Primitives (log ++ m.world.marks))
    (h : signedCheck log m.world.marks = true) : Keepers log pk {m} := by
  refine ⟨?_, ?_, ?_, fun sig msg r hv => ⟨m, rfl, ?_⟩⟩
  · rintro _ rfl
    exact hr
  · rintro _ rfl
    exact hh
  · rintro _ rfl
    exact hp
  · have hm := List.all_eq_true.mp h _ hv
    simpa [Link.okTail] using hm

theorem toy_primitives : Primitives (Toy.dialer.world.marks ++ Toy.acceptor.world.marks) := by
  refine primitives_of_check ?_
  decide +kernel

section Ends

variable {la lb : List Mark} {sp sp' : Spec} {own own' : Bytes}

/-- What a dialer checked, a holder of the dialed key signed as the accept of this first message. -/
theorem Check.Passed.answered {c : Check} (hh : Hashes (la ++ lb)) (hp : Primitives (la ++ lb))
    (hc : c.Passed sp own la)
    (hs : SignLaw sp' own' lb (channelIdentityMessage c.root c.hs sp.dialedPeerId)) :
    sp'.weDialed = false ∧ own' = sp.dialedPeerId ∧ sp'.networkKey = sp.networkKey ∧
      ∃ d : Draft, d.Made sp' lb ∧ d.w1 = c.w1 ∧ d.head = c.head := by
  have hroot := hp.hash _ _ hc.hello.root.left
  have hhs := hp.hash _ _ hc.hs.left
  have hth := hp.hash _ _ hc.hello.th.left
  obtain hs | ⟨hd, d, hm, hs⟩ | ⟨-, c', h2, hc', hh2, hs⟩ := hs
  · exact absurd hs (contact_apart hroot)
  · have hroot' := hp.hash _ _ hm.proved.root.right
    obtain ⟨hr, ht, hid⟩ := identity_apart (hroot.trans hroot'.symm) (hhs.trans (hp.hash _ _ hm.hs.right).symm) hs
    have hnet := hh.apart _ _ _ (hr ▸ hm.proved.root.right) hc.hello.root.left
    obtain ⟨hh1, hhead⟩ := hh.split (ht ▸ hm.hs.right) hc.hs.left ((hp.hash _ _ hm.h1.right).trans hth.symm)
    obtain ⟨-, hw1⟩ := hh.split (hh1 ▸ hm.h1.right) hc.hello.th.left (hroot'.trans hroot.symm)
    exact ⟨hd, hid.symm, List.append_cancel_left hnet, d, hm, hw1, hhead⟩
  · -- a dialer signs a transcript with a whole msg2
    obtain ⟨-, ht, -⟩ := identity_apart (hroot.trans (hp.hash _ _ hc'.hello.root.right).symm)
      (hhs.trans (hp.hash _ _ hh2.right).symm) hs
    obtain ⟨-, hw2⟩ := hh.split (ht ▸ hh2.right) hc.hs.left ((hp.hash _ _ hc'.hello.th.right).trans hth.symm)
    have hle : c'.w2.length ≤ EPH_LEN + KEM_CT_LEN := by
      rw [hw2]
      exact List.length_take_le _ _
    rw [hc'.width] at hle
    exact absurd hle (by decide)

/-- What an accept took a msg3 for, a holder of its sender's key signed as the dialer of this msg1 and msg2. -/
theorem Accept.Done.answered {a : Accept} (hh : Hashes (la ++ lb)) (hp : Primitives (la ++ lb))
    (ha : a.Done sp own la) (hs : SignLaw sp' own' lb (channelIdentityMessage a.root a.th a.id)) :
    sp'.weDialed = true ∧ own' = a.id ∧ sp'.networkKey = sp.networkKey ∧
      ∃ c : Check, c.Passed sp' own' lb ∧ c.w1 = a.w1 ∧ c.w2 = a.w2 := by
  have hroot := hp.hash _ _ ha.reply.proved.root.left
  have hth := hp.hash _ _ ha.reply.th.left
  have hh1 := hp.hash _ _ ha.reply.h1.left
  obtain hs | ⟨-, d, hm, hs⟩ | ⟨hd, c, h2, hc, hh2, hs⟩ := hs
  · exact absurd hs (contact_apart hroot)
  · -- an accept signs a transcript that ends before its tail
    obtain ⟨-, ht, -⟩ := identity_apart (hroot.trans (hp.hash _ _ hm.proved.root.right).symm)
      (hth.trans (hp.hash _ _ hm.hs.right).symm) hs
    obtain ⟨-, hw2⟩ := hh.split (ht ▸ hm.hs.right) ha.reply.th.left ((hp.hash _ _ hm.h1.right).trans hh1.symm)
    have hl := congrArg List.length hw2
    have hpub := hp.dh _ _ _ ha.reply.eph.left
    have htail := hp.tagged _ _ _ _ ha.reply.tail.left
    simp only [Draft.head, Reply.w2, Reply.head, List.length_append, List.length_take, hm.ctWidth,
      ha.reply.ctWidth, hpub, htail, EPH_LEN, TAG_LEN] at hl
    omega
  · have hroot' := hp.hash _ _ hc.hello.root.right
    obtain ⟨hr, ht, hid⟩ := identity_apart (hroot.trans hroot'.symm) (hth.trans (hp.hash _ _ hh2.right).symm) hs
    have hnet := hh.apart _ _ _ (hr ▸ hc.hello.root.right) ha.reply.proved.root.left
    obtain ⟨h1, hw2⟩ := hh.split (ht ▸ hh2.right) ha.reply.th.left ((hp.hash _ _ hc.hello.th.right).trans hh1.symm)
    obtain ⟨-, hw1⟩ := hh.split (h1 ▸ hc.hello.th.right) ha.reply.h1.left (hroot'.trans hroot.symm)
    exact ⟨hd, hid.symm, List.append_cancel_left hnet, c, hc, hw1, hw2⟩

/-- Two sessions with the dialer's sending key in common have all of the handshake in common. -/
theorem Dial.Done.met {d : Dial} {a : Accept} (hh : Hashes (la ++ lb)) (hp : Primitives (la ++ lb))
    (hd : d.Done sp own la) (ha : a.Done sp' own' lb) (hk : d.i2r = a.i2r) :
    sp'.networkKey = sp.networkKey ∧ a.fin = d.fin ∧ a.r2i = d.r2i ∧ a.w1 = d.w1 ∧ a.w2 = d.w2 ∧ a.w3 = d.w3 ∧
      a.id = own := by
  have hfin := hp.hash _ _ hd.fin.left
  have hfin' := hp.hash _ _ ha.fin.right
  have hkey := List.append_cancel_right (hh.apart _ _ _ hd.i2r.left (hk ▸ ha.i2r.right))
  obtain ⟨hikm, hf⟩ := List.append_inj' hkey (hfin.trans hfin'.symm)
  have hr2i := hh.same _ _ _ (hikm ▸ hf ▸ hd.r2i.left) ha.r2i.right
  obtain ⟨h2, hw3⟩ := hh.split hd.fin.left (hf ▸ ha.fin.right)
    ((hp.hash _ _ hd.h2.left).trans (hp.hash _ _ ha.reply.th.right).symm)
  obtain ⟨h1, hw2⟩ := hh.split hd.h2.left (h2 ▸ ha.reply.th.right)
    ((hp.hash _ _ hd.passed.hello.th.left).trans (hp.hash _ _ ha.reply.h1.right).symm)
  obtain ⟨hroot, hw1⟩ := hh.split hd.passed.hello.th.left (h1 ▸ ha.reply.h1.right)
    ((hp.hash _ _ hd.passed.hello.root.left).trans (hp.hash _ _ ha.reply.proved.root.right).symm)
  have hnet := hh.apart _ _ _ hd.passed.hello.root.left (hroot ▸ ha.reply.proved.root.right)
  have hkey3 := hh.same _ _ _ (hikm ▸ h2 ▸ hd.key3.left) ha.key3.right
  have hplain := hp.opens _ _ _ _ _ hd.w3.left (hkey3 ▸ hw3 ▸ ha.opened.right)
  have hwide := hp.tagged _ _ _ _ hd.w3.left
  rw [hw3, ha.width, List.length_append, hp.sign _ _ hd.sig3.left] at hwide
  have hown : own.length = PK_LEN := by
    simp only [M3_LEN] at hwide
    omega
  refine ⟨(List.append_cancel_left hnet).symm, hf.symm, hr2i.symm, hw1.symm, hw2.symm, hw3.symm, ?_⟩
  rw [Accept.id, hplain, List.take_left' hown]

end Ends

/-! ### Two links -/

namespace LinkMachine

variable {A B : LinkMachine} {keepers : Set LinkMachine} {p s r : Bytes} {t : Option Bytes}

theorem Reachable.signs {m : LinkMachine} (h : m.Reachable) {msg : Bytes}
    (hs : Mark.asked (.sign msg) ∈ m.world.marks) :
    SignLaw m.world.spec m.world.node.ownPk m.world.marks msg := by
  obtain ⟨l₁, hp, hlaw⟩ := h.lawful.of_mem hs
  exact hlaw.2.longer hp.subset

/-- A dialer that has a session dialed one who answered: where every signature it took under its peer's key is of a
link that has the key, one of these is an accept on the same network that proved the very first message of the
dialer's transcript and signed for the ephemeral and the ciphertext the dialer took. -/
theorem dialer_agrees (hA : A.Reachable) (hd : A.world.spec.weDialed = true)
    (hs : Mark.session p t s r ∈ A.world.marks) (hk : Keepers A.world.marks p keepers) :
    ∃ m ∈ keepers, m.world.spec.weDialed = false ∧ m.world.node.ownPk = p ∧
      m.world.spec.networkKey = A.world.spec.networkKey ∧
      ∃ (d : Dial) (a : Draft), d.Done A.world.spec A.world.node.ownPk A.world.marks ∧ t = some d.fin ∧
        s = d.i2r ∧ a.Made m.world.spec m.world.marks ∧ a.w1 = d.w1 ∧ a.head = d.head := by
  obtain ⟨-, d, hdone, rfl, ht, hi, -⟩ | ⟨hno, -⟩ := hA.lawful.session hs
  · obtain ⟨_, hv⟩ := hdone.passed.verified
    obtain ⟨m, hm, hsign⟩ := hk.signed _ _ _ hv
    obtain ⟨hacc, hown, hnet, a, hmade, hw1, hhead⟩ := hdone.passed.answered (hk.hashes m hm) (hk.primitives m hm)
      ((hk.reachable m hm).signs hsign)
    exact ⟨m, hm, hacc, hown, hnet, d, a, hdone, ht, hi, hmade, hw1, hhead⟩
  · exact absurd (hno.symm.trans hd) (by simp)

theorem dialer_agrees_toy : ∃ m ∈ ({Toy.acceptor} : Set LinkMachine), m.world.spec.weDialed = false := by
  obtain ⟨p, _, _, _, _, _, _, hs, -⟩ := toy_sessions
  have hk : Keepers Toy.dialer.world.marks p {Toy.acceptor} :=
    keepers_of_check Toy.acceptor_reachable toy_hashes toy_primitives (by decide +kernel)
  obtain ⟨m, hm, hd, -⟩ := dialer_agrees Toy.dialer_reachable (by decide +kernel) hs hk
  exact ⟨m, hm, hd⟩

/-- An accept that has a session was dialed by its peer: under the same condition one of the peer's links is a dialer
on the same network that checked its dialed key on the very two messages of the accept's transcript. -/
theorem acceptor_agrees (hB : B.Reachable) (hd : B.world.spec.weDialed = false)
    (hs : Mark.session p t s r ∈ B.world.marks) (hk : Keepers B.world.marks p keepers) :
    ∃ m ∈ keepers, m.world.spec.weDialed = true ∧ m.world.node.ownPk = p ∧
      m.world.spec.networkKey = B.world.spec.networkKey ∧
      ∃ (a : Accept) (c : Check), a.Done B.world.spec B.world.node.ownPk B.world.marks ∧ t = some a.fin ∧
        s = a.r2i ∧ c.Passed m.world.spec m.world.node.ownPk m.world.marks ∧ c.w1 = a.w1 ∧ c.w2 = a.w2 := by
  obtain ⟨hyes, -⟩ | ⟨-, a, hdone, rfl, ht, hi, -⟩ := hB.lawful.session hs
  · exact absurd (hyes.symm.trans hd) (by simp)
  · obtain ⟨_, hv⟩ := hdone.verified
    obtain ⟨m, hm, hsign⟩ := hk.signed _ _ _ hv
    obtain ⟨hdial, hown, hnet, c, hc, hw1, hw2⟩ := hdone.answered (hk.hashes m hm) (hk.primitives m hm)
      ((hk.reachable m hm).signs hsign)
    exact ⟨m, hm, hdial, hown, hnet, a, c, hdone, ht, hi, hc, hw1, hw2⟩

theorem acceptor_agrees_toy : ∃ m ∈ ({Toy.dialer} : Set LinkMachine), m.world.spec.weDialed = true := by
  obtain ⟨_, _, _, _, p, _, _, -, hs⟩ := toy_sessions
  have hk : Keepers Toy.acceptor.world.marks p {Toy.dialer} :=
    keepers_of_check Toy.dialer_reachable (toy_hashes.of_subset (List.perm_append_comm.subset))
      (toy_primitives.of_subset (List.perm_append_comm.subset)) (by decide +kernel)
  obtain ⟨m, hm, hd, -⟩ := acceptor_agrees Toy.acceptor_reachable (by decide +kernel) hs hk
  exact ⟨m, hm, hd⟩

/-- One key, one conversation: two sessions of which one receives under the key the dialer sends under are of a dialer
and an accept on the same network, with the same three messages, the same transcript hash and the same keys crosswise,
and the accept's peer is the dialer's own key. -/
theorem one_conversation {pA pB key kr ks : Bytes} {tA tB : Option Bytes} (hA : A.Reachable) (hB : B.Reachable)
    (hd : A.world.spec.weDialed = true) (hsA : Mark.session pA tA key kr ∈ A.world.marks)
    (hsB : Mark.session pB tB ks key ∈ B.world.marks) (hh : Hashes (A.world.marks ++ B.world.marks))
    (hp : Primitives (A.world.marks ++ B.world.marks)) :
    B.world.spec.weDialed = false ∧ B.world.spec.networkKey = A.world.spec.networkKey ∧ tB = tA ∧ ks = kr ∧
      pB = A.world.node.ownPk ∧
      ∃ (d : Dial) (a : Accept), d.Done A.world.spec A.world.node.ownPk A.world.marks ∧
        a.Done B.world.spec B.world.node.ownPk B.world.marks ∧ a.w1 = d.w1 ∧ a.w2 = d.w2 ∧ a.w3 = d.w3 := by
  obtain ⟨-, d, hdone, -, rfl, rfl, rfl⟩ | ⟨hno, -⟩ := hA.lawful.session hsA
  · obtain ⟨-, d', hdone', -, -, -, hkey⟩ | ⟨hacc, a, ha, rfl, rfl, rfl, hkey⟩ := hB.lawful.session hsB
    · -- a dialer receives under the other label
      have hl : Keyed (A.world.marks ++ B.world.marks) LABEL_I2R d.i2r := ⟨_, hdone.i2r.left⟩
      have hl' : Keyed (A.world.marks ++ B.world.marks) LABEL_R2I d.i2r := ⟨_, hkey ▸ hdone'.r2i.right⟩
      have hne : LABEL_I2R ≠ LABEL_R2I := by decide
      exact absurd (hh.label (by decide) (by decide) hl hl') hne
    · obtain ⟨hnet, hfin, hr2i, hw1, hw2, hw3, hid⟩ := hdone.met hh hp ha hkey
      exact ⟨hacc, hnet, congrArg some hfin, hr2i, hid, d, a, hdone, ha, hw1, hw2, hw3⟩
  · exact absurd (hno.symm.trans hd) (by simp)

theorem one_conversation_toy : Toy.acceptor.world.spec.networkKey = Toy.dialer.world.spec.networkKey := by
  obtain ⟨_, _, _, _, _, _, _, hsA, hsB⟩ := toy_sessions
  exact (one_conversation Toy.dialer_reachable Toy.acceptor_reachable (by decide +kernel) hsA hsB toy_hashes
    toy_primitives).2.1

end LinkMachine

end SeedTransport
