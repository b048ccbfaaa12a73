import SeedTransport.Link.Model

set_option autoImplicit false

namespace SeedTransport

/-! What a link's log must look like: what each call and each step of its handshake and its
records must have before it. The laws speak of the log alone, not of the code. -/

/-- The log has `y` as the answer to `c`. -/
def Answers (log : List Mark) (c : Call) (y : Bytes) : Prop := Mark.done c (some y) ∈ log

/-- `k` is a key the log derives under `label`. -/
def Keyed (log : List Mark) (label k : Bytes) : Prop := ∃ x, Answers log (.hash (x ++ label)) k

def handshakeLabels : List Bytes := [LABEL_PROBE, LABEL_M2, LABEL_M3]

def recordLabels : List Bytes := [LABEL_I2R, LABEL_R2I, LABEL_REKEY]

/-! ### Places in the record layer -/

/-- Epoch and counter, the epoch first. -/
def Pos.place (p : Pos) : ℕ ×ₗ ℕ := toLex (p.epoch, p.ctr)

/-- One record on. -/
def advance (rekey : Nat) (p : ℕ ×ₗ ℕ) : ℕ ×ₗ ℕ :=
  if rekey ≤ (ofLex p).2 + 1 then toLex ((ofLex p).1 + 1, 0)
  else toLex ((ofLex p).1, (ofLex p).2 + 1)

theorem lt_advance (rekey : Nat) (p : ℕ ×ₗ ℕ) : p < advance rekey p := by
  unfold advance
  split <;> simp [Prod.Lex.lt_iff]

/-- The key of an epoch: the session's, ratcheted once per epoch. -/
inductive KeyChain (log : List Mark) (key : Bytes) : Nat → Bytes → Prop where
  | zero : KeyChain log key 0 key
  | succ {e : Nat} {k k' : Bytes} (h : KeyChain log key e k)
      (hash : Answers log (.hash (k ++ LABEL_REKEY)) k') : KeyChain log key (e + 1) k'

/-- A record that went through one direction of a link. -/
structure Rec where
  before : Pos
  text : Bytes
  after : Pos

def sealedOf : Mark → Option Rec
  | .sealed before frame _ after => some ⟨before, frame, after⟩
  | _ => none

def acceptedOf : Mark → Option Rec
  | .accepted before pt after => some ⟨before, pt, after⟩
  | _ => none

def frameOf : Mark → Option Bytes
  | .asked (.onFrame _ pt) => some pt
  | _ => none

/-- The records a link sealed, in order. -/
def sealedRecs (log : List Mark) : List Rec := log.filterMap sealedOf

/-- The records a link accepted, in order. -/
def acceptedRecs (log : List Mark) : List Rec := log.filterMap acceptedOf

/-- The frames a link passed to `onFrame`, in order. -/
def framesOf (log : List Mark) : List Bytes := log.filterMap frameOf

theorem sealedRecs_concat (log : List Mark) (m : Mark) :
    sealedRecs (log ++ [m]) = sealedRecs log ++ (sealedOf m).toList := by
  cases h : sealedOf m <;> simp [sealedRecs, List.filterMap_append, h]

theorem acceptedRecs_concat (log : List Mark) (m : Mark) :
    acceptedRecs (log ++ [m]) = acceptedRecs log ++ (acceptedOf m).toList := by
  cases h : acceptedOf m <;> simp [acceptedRecs, List.filterMap_append, h]

theorem framesOf_concat (log : List Mark) (m : Mark) :
    framesOf (log ++ [m]) = framesOf log ++ (frameOf m).toList := by
  cases h : frameOf m <;> simp [framesOf, List.filterMap_append, h]

/-- Where a direction stands after its records. -/
def endPlace (recs : List Rec) : ℕ ×ₗ ℕ :=
  match recs.getLast? with
  | none => toLex (0, 0)
  | some r => r.after.place

/-! ### The dialer's handshake -/

/-- The dialer's msg1 and what it was made of. -/
structure Hello where
  root : Bytes
  sk : Bytes
  pub : Bytes
  seed : Bytes
  kem : Bytes
  secret : Bytes
  ctx : Bytes
  key : Bytes
  tag : Bytes
  th : Bytes

namespace Hello

def eph (h : Hello) : Bytes := h.pub.take EPH_LEN

def kemPk (h : Hello) : Bytes := h.kem.take KEM_PK_LEN

def kemSk (h : Hello) : Bytes := h.kem.drop KEM_PK_LEN

def w1 (h : Hello) : Bytes := SUITE_BYTE ++ h.eph ++ h.kemPk ++ h.tag

structure Made (h : Hello) (sp : Spec) (log : List Mark) : Prop where
  root : Answers log (.hash (DOMAIN_CHANNEL ++ sp.networkKey)) h.root
  eph : Answers log (.dh h.sk X25519_BASEPOINT) (1 :: h.pub)
  kem : Answers log (.kemKeypair h.seed) h.kem
  kemWidth : h.kem.length = KEM_PK_LEN + KEM_SK_LEN
  secret : sp.linkSecret = some h.secret
  ctx : Answers log (.hash (h.root ++ SUITE_BYTE ++ h.eph ++ h.kemPk)) h.ctx
  key : Answers log (.hash (h.secret ++ h.ctx ++ LABEL_PROBE)) h.key
  tag : Answers log (.aeadSeal h.key ZERO_NPUB EMPTY) h.tag
  th : Answers log (.hash (h.root ++ h.w1)) h.th

end Hello

/-- The msg2 a dialer took, up to the check of its signature. -/
structure Check extends Hello where
  w2 : Bytes
  ee : Bytes
  ss : Bytes
  hs : Bytes
  key2 : Bytes
  sig : Bytes

namespace Check

def head (c : Check) : Bytes := c.w2.take (EPH_LEN + KEM_CT_LEN)

structure Passed (c : Check) (sp : Spec) (own : Bytes) (log : List Mark) : Prop where
  hello : c.toHello.Made sp log
  width : c.w2.length = M2_LEN
  ee : Answers log (.dh c.sk (c.head.take EPH_LEN)) (1 :: c.ee)
  ss : Answers log (.kemDecaps c.kemSk (c.head.drop EPH_LEN)) (1 :: c.ss)
  ssWidth : c.ss.length = KEM_SS_LEN
  hs : Answers log (.hash (c.th ++ c.head)) c.hs
  key2 : Answers log (.hash ([c.ee, c.ss].flatten ++ c.secret ++ c.hs ++ LABEL_M2)) c.key2
  sig : Answers log (.aeadOpen c.key2 ZERO_NPUB (c.w2.drop (EPH_LEN + KEM_CT_LEN))) (1 :: c.sig)
  verified : ∃ r, Answers log (.verify sp.dialedPeerId c.sig
    (channelIdentityMessage c.root c.hs sp.dialedPeerId)) (1 :: r)
  other : sp.dialedPeerId ≠ own

end Check

/-- A dialer's whole handshake. -/
structure Dial extends Check where
  h2 : Bytes
  sig3 : Bytes
  key3 : Bytes
  w3 : Bytes
  fin : Bytes
  i2r : Bytes
  r2i : Bytes

structure Dial.Done (d : Dial) (sp : Spec) (own : Bytes) (log : List Mark) : Prop where
  passed : d.toCheck.Passed sp own log
  h2 : Answers log (.hash (d.th ++ d.w2)) d.h2
  sig3 : Answers log (.sign (channelIdentityMessage d.root d.h2 own)) d.sig3
  key3 : Answers log (.hash ([d.ee, d.ss].flatten ++ d.secret ++ d.h2 ++ LABEL_M3)) d.key3
  w3 : Answers log (.aeadSeal d.key3 ZERO_NPUB (own ++ d.sig3)) d.w3
  fin : Answers log (.hash (d.h2 ++ d.w3)) d.fin
  i2r : Answers log (.hash ([d.ee, d.ss].flatten ++ d.secret ++ d.fin ++ LABEL_I2R)) d.i2r
  r2i : Answers log (.hash ([d.ee, d.ss].flatten ++ d.secret ++ d.fin ++ LABEL_R2I)) d.r2i

/-! ### The acceptor's handshake -/

/-- A msg1 that opened under one of an accept's secrets. -/
structure Probe where
  root : Bytes
  w1 : Bytes
  list : List Bytes
  secret : Bytes
  ctx : Bytes
  key : Bytes
  rest : Bytes

namespace Probe

def ephI (p : Probe) : Bytes := slice p.w1 SUITE_LEN (SUITE_LEN + EPH_LEN)

def kemPkI (p : Probe) : Bytes :=
  slice p.w1 (SUITE_LEN + EPH_LEN) (SUITE_LEN + EPH_LEN + KEM_PK_LEN)

def tag (p : Probe) : Bytes := p.w1.drop (SUITE_LEN + EPH_LEN + KEM_PK_LEN)

structure Opened (p : Probe) (sp : Spec) (log : List Mark) : Prop where
  took : Mark.took p.w1 ∈ log
  width : p.w1.length = M1_LEN
  suite : p.w1.head? = some SUITE_CHANNEL_CONCEALED
  list : Mark.secrets p.list ∈ log
  secret : p.secret ∈ p.list
  root : Answers log (.hash (DOMAIN_CHANNEL ++ sp.networkKey)) p.root
  ctx : Answers log (.hash (p.root ++ p.w1.take SUITE_LEN ++ p.ephI ++ p.kemPkI)) p.ctx
  key : Answers log (.hash (p.secret ++ p.ctx ++ LABEL_PROBE)) p.key
  opened : Answers log (.aeadOpen p.key ZERO_NPUB p.tag) (1 :: p.rest)

/-- It opened and its ephemeral was unseen. -/
structure Proved (p : Probe) (sp : Spec) (log : List Mark) : Prop extends p.Opened sp log where
  fresh : Mark.probed p.ephI ∈ log

end Probe

/-- What of its msg2 an acceptor signs for: the transcript up to its ephemeral and its ciphertext. -/
structure Draft extends Probe where
  sk : Bytes
  pub : Bytes
  ct : Bytes
  h1 : Bytes
  hs : Bytes

namespace Draft

def head (d : Draft) : Bytes := d.pub.take EPH_LEN ++ d.ct

structure Made (d : Draft) (sp : Spec) (log : List Mark) : Prop where
  proved : d.toProbe.Proved sp log
  eph : Answers log (.dh d.sk X25519_BASEPOINT) (1 :: d.pub)
  kem : ∃ coins ss, Answers log (.kemEncaps d.kemPkI coins) (1 :: (d.ct ++ ss))
  ctWidth : d.ct.length = KEM_CT_LEN
  h1 : Answers log (.hash (d.root ++ d.w1)) d.h1
  hs : Answers log (.hash (d.h1 ++ d.head)) d.hs

end Draft

/-- The msg2 an acceptor made. -/
structure Reply extends Probe where
  sk : Bytes
  pub : Bytes
  ee : Bytes
  coins : Bytes
  ct : Bytes
  ss : Bytes
  h1 : Bytes
  hs : Bytes
  sig : Bytes
  key2 : Bytes
  tail : Bytes
  th : Bytes

namespace Reply

def head (r : Reply) : Bytes := r.pub.take EPH_LEN ++ r.ct

def w2 (r : Reply) : Bytes := r.head ++ r.tail

structure Made (r : Reply) (sp : Spec) (own : Bytes) (log : List Mark) : Prop where
  proved : r.toProbe.Proved sp log
  eph : Answers log (.dh r.sk X25519_BASEPOINT) (1 :: r.pub)
  ee : Answers log (.dh r.sk r.ephI) (1 :: r.ee)
  kem : Answers log (.kemEncaps r.kemPkI r.coins) (1 :: (r.ct ++ r.ss))
  ctWidth : r.ct.length = KEM_CT_LEN
  ssWidth : r.ss.length = KEM_SS_LEN
  h1 : Answers log (.hash (r.root ++ r.w1)) r.h1
  hs : Answers log (.hash (r.h1 ++ r.head)) r.hs
  sig : Answers log (.sign (channelIdentityMessage r.root r.hs own)) r.sig
  key2 : Answers log (.hash ([r.ee, r.ss].flatten ++ r.secret ++ r.hs ++ LABEL_M2)) r.key2
  tail : Answers log (.aeadSeal r.key2 ZERO_NPUB r.sig) r.tail
  th : Answers log (.hash (r.h1 ++ r.w2)) r.th

end Reply

/-- An acceptor's whole handshake. -/
structure Accept extends Reply where
  w3 : Bytes
  key3 : Bytes
  plain : Bytes
  fin : Bytes
  i2r : Bytes
  r2i : Bytes

namespace Accept

def id (a : Accept) : Bytes := a.plain.take PK_LEN

def sig3 (a : Accept) : Bytes := slice a.plain PK_LEN (PK_LEN + SIG_LEN)

structure Done (a : Accept) (sp : Spec) (own : Bytes) (log : List Mark) : Prop where
  reply : a.toReply.Made sp own log
  width : a.w3.length = M3_LEN
  key3 : Answers log (.hash ([a.ee, a.ss].flatten ++ a.secret ++ a.th ++ LABEL_M3)) a.key3
  opened : Answers log (.aeadOpen a.key3 ZERO_NPUB a.w3) (1 :: a.plain)
  verified : ∃ r, Answers log (.verify a.id a.sig3 (channelIdentityMessage a.root a.th a.id)) (1 :: r)
  other : a.id ≠ own
  fin : Answers log (.hash (a.th ++ a.w3)) a.fin
  i2r : Answers log (.hash ([a.ee, a.ss].flatten ++ a.secret ++ a.fin ++ LABEL_I2R)) a.i2r
  r2i : Answers log (.hash ([a.ee, a.ss].flatten ++ a.secret ++ a.fin ++ LABEL_R2I)) a.r2i

end Accept

/-! ### The laws -/

/-- The calls a stranger must not make an accept pay for. The contact secret's one
signature is the node's, not the link's. -/
def Call.costly : Call → Bool
  | .random _ => true
  | .dh _ _ => true
  | .kemKeypair _ => true
  | .kemEncaps _ _ => true
  | .kemDecaps _ _ => true
  | .sign msg => msg != DOMAIN_CONTACT
  | .aeadSeal _ _ _ => true
  | .wire _ => true
  | _ => false

/-- What must come before a seal: a handshake key of its own label, or a record key at a
place past every record sealed so far. -/
def SealLaw (log : List Mark) (k n p : Bytes) : Prop :=
  (∃ label ∈ handshakeLabels, n = ZERO_NPUB ∧ Keyed log label k ∧
    ∀ k' n' p', Mark.asked (.aeadSeal k' n' p') ∈ log →
      ∃ label' ∈ handshakeLabels, label' ≠ label ∧ Keyed log label' k') ∨
  (∃ e c, e < 2 ^ 32 ∧ c < 2 ^ 32 ∧ n = nonce e c ∧ (∃ label ∈ recordLabels, Keyed log label k) ∧
    (∃ ends, log.getLast? = some (.seals ⟨e, c, some k⟩ p ends)) ∧
    ∀ k' n' p' ct, Mark.done (.aeadSeal k' n' p') (some ct) ∈ log →
      (∃ label' ∈ handshakeLabels, Keyed log label' k') ∨
      ∃ e' c', e' < 2 ^ 32 ∧ c' < 2 ^ 32 ∧ n' = nonce e' c' ∧ toLex (e', c') < toLex (e, c))

/-- What must come before a write: a dialer's msg1 is what it writes first, and all else
follows the check of the dialed key. -/
def WireLaw (sp : Spec) (own : Bytes) (log : List Mark) (m : Bytes) : Prop :=
  sp.weDialed = true →
    (∃ h : Hello, h.Made sp log ∧ m = h.w1) ∨ ∃ c : Check, c.Passed sp own log

/-- What must come before a signature: an acceptor signs the transcript of a proved msg1 and its own reply, a
dialer that of a msg2 it has checked. -/
def SignLaw (sp : Spec) (own : Bytes) (log : List Mark) (msg : Bytes) : Prop :=
  msg = DOMAIN_CONTACT ∨
  (sp.weDialed = false ∧ ∃ d : Draft, d.Made sp log ∧ msg = channelIdentityMessage d.root d.hs own) ∨
  (sp.weDialed = true ∧ ∃ (c : Check) (h2 : Bytes), c.Passed sp own log ∧ Answers log (.hash (c.th ++ c.w2)) h2 ∧
    msg = channelIdentityMessage c.root h2 own)

def SessionLaw (sp : Spec) (own : Bytes) (log : List Mark) (peer : Bytes) (th : Option Bytes)
    (s r : Bytes) : Prop :=
  (sp.weDialed = true ∧ ∃ d : Dial, d.Done sp own log ∧ peer = sp.dialedPeerId ∧
    th = some d.fin ∧ s = d.i2r ∧ r = d.r2i) ∨
  (sp.weDialed = false ∧ ∃ a : Accept, a.Done sp own log ∧ peer = a.id ∧
    th = some a.fin ∧ s = a.r2i ∧ r = a.i2r)

def NoSession (log : List Mark) : Prop := ∀ p t s r, Mark.session p t s r ∉ log

/-- A record moves one place on, under the key of its epoch. -/
structure RecLaw (rekey : Nat) (key : Bytes) (log : List Mark) (r : Rec) : Prop where
  keyed : ∃ k, r.before.key = some k ∧ KeyChain log key r.before.epoch k
  moved : r.after.place = advance rekey r.before.place
  next : ∀ k, r.after.key = some k → KeyChain log key r.after.epoch k

structure SealedLaw (sp : Spec) (log : List Mark) (before : Pos) (frame ct : Bytes) (after : Pos) :
    Prop where
  record : ∃ p t s r, Mark.session p t s r ∈ log ∧
    RecLaw sp.rekeyAfterFrames s log ⟨before, frame, after⟩
  answered : ∃ k, before.key = some k ∧
    Answers log (.aeadSeal k (nonce before.epoch before.ctr) frame) ct
  past : ∀ r ∈ sealedRecs log, advance sp.rekeyAfterFrames r.before.place ≤ before.place

structure AcceptedLaw (sp : Spec) (log : List Mark) (before : Pos) (pt : Bytes) (after : Pos) :
    Prop where
  record : ∃ p t s r, Mark.session p t s r ∈ log ∧
    RecLaw sp.rekeyAfterFrames r log ⟨before, pt, after⟩
  opened : ∃ k ct, before.key = some k ∧
    Answers log (.aeadOpen k (nonce before.epoch before.ctr) ct) (1 :: pt)
  here : before.place = endPlace (acceptedRecs log)
  whole : ∀ r ∈ acceptedRecs log, r.text ≠ []

def Law (sp : Spec) (own : Bytes) (log : List Mark) : Mark → Prop
  | .asked c =>
    (c.costly = true → sp.weDialed = false → ∃ p : Probe, p.Proved sp log) ∧
      match c with
      | .aeadSeal k n p => SealLaw log k n p
      | .wire m => WireLaw sp own log m
      | .sign msg => SignLaw sp own log msg
      | _ => True
  | .done c _ => Mark.asked c ∈ log
  | .probed eph => ∃ p : Probe, p.Opened sp log ∧ p.ephI = eph
  | .session p t s r => NoSession log ∧ SessionLaw sp own log p t s r
  | .sealed before frame ct after => SealedLaw sp log before frame ct after
  | .accepted before pt after => AcceptedLaw sp log before pt after
  | _ => True

/-- Every mark of the log has before it what it must have. -/
def Lawful (sp : Spec) (own : Bytes) (log : List Mark) : Prop :=
  ∀ l₁ m l₂, log = l₁ ++ m :: l₂ → Law sp own l₁ m

theorem lawful_nil (sp : Spec) (own : Bytes) : Lawful sp own [] := by
  intro l₁ m l₂ h
  simp at h

theorem Lawful.concat {sp : Spec} {own : Bytes} {log : List Mark} {m : Mark}
    (h : Lawful sp own log) (hm : Law sp own log m) : Lawful sp own (log ++ [m]) := by
  intro l₁ m' l₂ heq
  rcases List.eq_nil_or_concat l₂ with rfl | ⟨l, x, rfl⟩
  · obtain ⟨rfl, hx⟩ := List.append_inj' heq rfl
    cases hx
    exact hm
  · rw [List.concat_eq_append] at heq
    obtain ⟨hl, -⟩ := List.append_inj' (heq.trans (by simp : _ = (l₁ ++ m' :: l) ++ [x])) rfl
    exact h l₁ m' l hl

theorem Lawful.of_mem {sp : Spec} {own : Bytes} {log : List Mark} {m : Mark}
    (h : Lawful sp own log) (hm : m ∈ log) : ∃ l₁, l₁ <+: log ∧ Law sp own l₁ m := by
  obtain ⟨l₁, l₂, rfl⟩ := List.append_of_mem hm
  exact ⟨l₁, List.prefix_append _ _, h l₁ m l₂ rfl⟩

/-! ### What a log shows, a longer one shows -/

section Longer

variable {log log' : List Mark}

theorem Answers.longer {c : Call} {y : Bytes} (hs : log ⊆ log') (h : Answers log c y) :
    Answers log' c y := hs h

theorem Keyed.longer {label k : Bytes} (hs : log ⊆ log') (h : Keyed log label k) :
    Keyed log' label k := h.imp fun _ => Answers.longer hs

theorem KeyChain.longer {key k : Bytes} {e : Nat} (hs : log ⊆ log') (h : KeyChain log key e k) :
    KeyChain log' key e k := by
  induction h with
  | zero => exact .zero
  | succ _ hash ih => exact .succ ih (hs hash)

theorem Hello.Made.longer {h : Hello} {sp : Spec} (hs : log ⊆ log') (m : h.Made sp log) :
    h.Made sp log' :=
  ⟨hs m.root, hs m.eph, hs m.kem, m.kemWidth, m.secret, hs m.ctx, hs m.key, hs m.tag, hs m.th⟩

theorem Check.Passed.longer {c : Check} {sp : Spec} {own : Bytes} (hs : log ⊆ log')
    (p : c.Passed sp own log) : c.Passed sp own log' :=
  ⟨p.hello.longer hs, p.width, hs p.ee, hs p.ss, p.ssWidth, hs p.hs, hs p.key2, hs p.sig,
    p.verified.imp fun _ => Answers.longer hs, p.other⟩

theorem Dial.Done.longer {d : Dial} {sp : Spec} {own : Bytes} (hs : log ⊆ log')
    (p : d.Done sp own log) : d.Done sp own log' :=
  ⟨p.passed.longer hs, hs p.h2, hs p.sig3, hs p.key3, hs p.w3, hs p.fin, hs p.i2r, hs p.r2i⟩

theorem Probe.Opened.longer {p : Probe} {sp : Spec} (hs : log ⊆ log') (h : p.Opened sp log) :
    p.Opened sp log' :=
  ⟨hs h.took, h.width, h.suite, hs h.list, h.secret, hs h.root, hs h.ctx, hs h.key, hs h.opened⟩

theorem Probe.Proved.longer {p : Probe} {sp : Spec} (hs : log ⊆ log') (h : p.Proved sp log) :
    p.Proved sp log' :=
  ⟨h.toOpened.longer hs, hs h.fresh⟩

theorem Draft.Made.longer {d : Draft} {sp : Spec} (hs : log ⊆ log') (m : d.Made sp log) : d.Made sp log' := by
  obtain ⟨coins, ss, hk⟩ := m.kem
  exact ⟨m.proved.longer hs, hs m.eph, ⟨coins, ss, hs hk⟩, m.ctWidth, hs m.h1, hs m.hs⟩

theorem SignLaw.longer {sp : Spec} {own msg : Bytes} (hs : log ⊆ log') (h : SignLaw sp own log msg) :
    SignLaw sp own log' msg := by
  obtain h | ⟨hd, d, hm, h⟩ | ⟨hd, c, h2, hp, hh, h⟩ := h
  · exact .inl h
  · exact .inr (.inl ⟨hd, d, hm.longer hs, h⟩)
  · exact .inr (.inr ⟨hd, c, h2, hp.longer hs, hs hh, h⟩)

theorem Reply.Made.longer {r : Reply} {sp : Spec} {own : Bytes} (hs : log ⊆ log')
    (m : r.Made sp own log) : r.Made sp own log' :=
  ⟨m.proved.longer hs, hs m.eph, hs m.ee, hs m.kem, m.ctWidth, m.ssWidth, hs m.h1, hs m.hs,
    hs m.sig, hs m.key2, hs m.tail, hs m.th⟩

theorem Accept.Done.longer {a : Accept} {sp : Spec} {own : Bytes} (hs : log ⊆ log')
    (m : a.Done sp own log) : a.Done sp own log' :=
  ⟨m.reply.longer hs, m.width, hs m.key3, hs m.opened, m.verified.imp fun _ => Answers.longer hs,
    m.other, hs m.fin, hs m.i2r, hs m.r2i⟩

theorem SessionLaw.longer {sp : Spec} {own peer s r : Bytes} {th : Option Bytes}
    (hs : log ⊆ log') (h : SessionLaw sp own log peer th s r) :
    SessionLaw sp own log' peer th s r := by
  rcases h with ⟨hd, d, hd', h⟩ | ⟨hd, a, ha, h⟩
  · exact .inl ⟨hd, d, hd'.longer hs, h⟩
  · exact .inr ⟨hd, a, ha.longer hs, h⟩

end Longer

/-- A session the log has was made as the law says. -/
theorem Lawful.session {sp : Spec} {own : Bytes} {log : List Mark} {p s r : Bytes}
    {t : Option Bytes} (h : Lawful sp own log) (hm : Mark.session p t s r ∈ log) :
    SessionLaw sp own log p t s r := by
  obtain ⟨l₁, hp, hlaw⟩ := h.of_mem hm
  exact hlaw.2.longer hp.subset

/-- A dialer with a session checked the dialed key; an acceptor with one had its msg1
proved. -/
theorem SessionLaw.checked {sp : Spec} {own : Bytes} {log : List Mark} {p s r : Bytes}
    {t : Option Bytes} (h : SessionLaw sp own log p t s r) :
    (sp.weDialed = true → ∃ c : Check, c.Passed sp own log) ∧
      (sp.weDialed = false → ∃ p : Probe, p.Proved sp log) := by
  rcases h with ⟨hd, d, hd', -⟩ | ⟨hd, a, ha, -⟩
  · exact ⟨fun _ => ⟨d.toCheck, hd'.passed⟩, fun h => absurd (hd.symm.trans h) (by simp)⟩
  · exact ⟨fun h => absurd (hd.symm.trans h) (by simp), fun _ => ⟨a.toProbe, ha.reply.proved⟩⟩

end SeedTransport
