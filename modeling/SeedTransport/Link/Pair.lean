import SeedTransport.Link.Sealing
import SeedTransport.Link.Keys
import SeedTransport.Lib.Lockstep

set_option autoImplicit false

namespace SeedTransport

/-! Two links that share a direction's key. What the receiver passes on is what the sender sealed, in its
order and from the first record on, whoever stands on the wire; and a goodbye says that all of it came. -/

/-! ### One log -/

theorem Lawful.of_concat {sp : Spec} {own : Bytes} {log : List Mark} {m : Mark} (h : Lawful sp own (log ++ [m])) :
    Lawful sp own log ∧ Law sp own log m := by
  refine ⟨fun l₁ m' l₂ he => h l₁ m' (l₂ ++ [m]) (by simp [he]), h log m [] rfl⟩

theorem Lawful.of_prefix {sp : Spec} {own : Bytes} {log log' : List Mark} (h : Lawful sp own log')
    (hp : log <+: log') : Lawful sp own log := by
  intro l₁ m l₂ he
  obtain ⟨rest, hrest⟩ := hp
  exact h l₁ m (l₂ ++ rest) (by rw [← hrest, he]; simp)

/-- A link has one session at most. -/
theorem Lawful.one_session {sp : Spec} {own : Bytes} {log : List Mark} (h : Lawful sp own log)
    {p p' s s' r r' : Bytes}
    {t t' : Option Bytes} (hm : Mark.session p t s r ∈ log) (hm' : Mark.session p' t' s' r' ∈ log) :
    s = s' ∧ r = r' := by
  induction log using List.reverseRecOn with
  | nil => exact absurd hm List.not_mem_nil
  | append_singleton log m ih =>
    obtain ⟨hlog, hlaw⟩ := h.of_concat
    obtain hm | hm := List.mem_append.mp hm
    · obtain hm' | hm' := List.mem_append.mp hm'
      · exact ih hlog hm hm'
      · rw [← List.mem_singleton.mp hm'] at hlaw
        exact absurd hm (hlaw.1 p t s r)
    · obtain hm' | hm' := List.mem_append.mp hm'
      · rw [← List.mem_singleton.mp hm] at hlaw
        exact absurd hm' (hlaw.1 p' t' s' r')
      · have he := (List.mem_singleton.mp hm).trans (List.mem_singleton.mp hm').symm
        injection he with h1 h2 h3 h4
        exact ⟨h3, h4⟩

theorem mem_sealedRecs {log : List Mark} {r : Rec} :
    r ∈ sealedRecs log ↔ ∃ ct, Mark.sealed r.before r.text ct r.after ∈ log := by
  unfold sealedRecs
  rw [List.mem_filterMap]
  constructor
  · rintro ⟨m, hm, hr⟩
    cases m with
    | «sealed» before frame ct after =>
      cases hr
      exact ⟨ct, hm⟩
    | _ => cases hr
  · rintro ⟨ct, hm⟩
    exact ⟨_, hm, rfl⟩

theorem mem_acceptedRecs {log : List Mark} {r : Rec} :
    r ∈ acceptedRecs log ↔ Mark.accepted r.before r.text r.after ∈ log := by
  unfold acceptedRecs
  rw [List.mem_filterMap]
  constructor
  · rintro ⟨m, hm, hr⟩
    cases m with
    | accepted before pt after =>
      cases hr
      exact hm
    | _ => cases hr
  · intro hm
    exact ⟨_, hm, rfl⟩

/-- A record's place and key, and its text: all that both ends know of it. -/
def Rec.plain (r : Rec) : Pos × Bytes := (r.before, r.text)

def standing (x : Pos × Bytes) : ℕ ×ₗ ℕ := x.1.place

theorem Lawful.moved {sp : Spec} {own : Bytes} {log : List Mark} (h : Lawful sp own log) :
    ∀ r ∈ sealedRecs log, r.after.place = advance sp.rekeyAfterFrames r.before.place := by
  intro r hr
  obtain ⟨ct, hm⟩ := mem_sealedRecs.mp hr
  obtain ⟨log', -, hlaw⟩ := h.of_mem hm
  obtain ⟨p, t, s, k, -, hrec⟩ := hlaw.record
  exact hrec.moved

/-- Records without a gap end where their number takes them. -/
theorem endPlace_seamless {rekey : Nat} {recs : List Rec}
    (h : Lockstep.Seamless (advance rekey) standing (toLex (0, 0)) (recs.map Rec.plain))
    (hm : ∀ r ∈ recs, r.after.place = advance rekey r.before.place) :
    endPlace recs = Lockstep.after (advance rekey) (toLex (0, 0)) (recs.map Rec.plain) := by
  obtain rfl | ⟨init, r, rfl⟩ := List.eq_nil_or_concat' recs
  · rfl
  · rw [List.map_append, List.map_singleton] at h ⊢
    obtain ⟨-, hlast⟩ := h.of_concat
    rw [Lockstep.after_concat, ← hlast]
    have hend : endPlace (init ++ [r]) = r.after.place := by simp [endPlace]
    exact hend.trans (hm r (List.mem_append_right _ List.mem_cons_self))

theorem Lawful.forward {sp : Spec} {own : Bytes} {log : List Mark} (h : Lawful sp own log) :
    Lockstep.Forward (advance sp.rekeyAfterFrames) standing ((sealedRecs log).map Rec.plain) := by
  induction log using List.reverseRecOn with
  | nil => exact List.Pairwise.nil
  | append_singleton log m ih =>
    obtain ⟨hlog, hlaw⟩ := h.of_concat
    rw [sealedRecs_concat, List.map_append]
    cases m with
    | «sealed» before frame ct after =>
      refine Lockstep.forward_concat (ih hlog) fun y hy => ?_
      obtain ⟨r, hr, rfl⟩ := List.mem_map.mp hy
      exact hlaw.past r hr
    | _ => simpa [sealedOf] using ih hlog

theorem Lawful.seamless {sp : Spec} {own : Bytes} {log : List Mark} (h : Lawful sp own log) :
    Lockstep.Seamless (advance sp.rekeyAfterFrames) standing (toLex (0, 0)) ((acceptedRecs log).map Rec.plain) ∧
      endPlace (acceptedRecs log) =
        Lockstep.after (advance sp.rekeyAfterFrames) (toLex (0, 0)) ((acceptedRecs log).map Rec.plain) := by
  induction log using List.reverseRecOn with
  | nil => exact ⟨trivial, rfl⟩
  | append_singleton log m ih =>
    obtain ⟨hlog, hlaw⟩ := h.of_concat
    obtain ⟨hseam, hend⟩ := ih hlog
    rw [acceptedRecs_concat, List.map_append]
    cases m with
    | accepted before pt after =>
      obtain ⟨p, t, s, r, -, hrec⟩ := hlaw.record
      have hhere : before.place = Lockstep.after (advance sp.rekeyAfterFrames) (toLex (0, 0))
          ((acceptedRecs log).map Rec.plain) := hlaw.here.trans hend
      refine ⟨Lockstep.seamless_concat hseam hhere, ?_⟩
      have hplace : endPlace (acceptedRecs log ++ [⟨before, pt, after⟩]) = after.place := by simp [endPlace]
      have hmoved : after.place = advance sp.rekeyAfterFrames before.place := hrec.moved
      refine hplace.trans (hmoved.trans ?_)
      rw [hhere]
      exact (Lockstep.after_concat _ (Rec.plain ⟨before, pt, after⟩)).symm
    | _ => simpa [acceptedOf] using ⟨hseam, hend⟩

/-! ### Two links -/

/-- What a receiver opens under the keys of one of its directions, one of the two links has sealed. -/
structure Opens (sender receiver : List Mark) (key : Bytes) : Prop where
  hashes : Hashes (sender ++ receiver)
  opens : ∀ e k n ct pt, KeyChain receiver key e k → Answers receiver (.aeadOpen k n ct) (1 :: pt) →
    ∃ before after, Mark.sealed before pt ct after ∈ sender ++ receiver ∧ before.key = some k ∧
      nonce before.epoch before.ctr = n

theorem advance_ctr {rekey : Nat} {p : ℕ ×ₗ ℕ} (hr : 1 ≤ rekey) : (ofLex (advance rekey p)).2 < rekey := by
  unfold advance
  split
  · exact hr
  · next h => exact Nat.lt_of_not_le h

theorem after_ctr {γ : Type} {rekey : Nat} (hr : 1 ≤ rekey) (items : List γ) :
    (ofLex (Lockstep.after (advance rekey) (toLex (0, 0)) items)).2 < rekey := by
  unfold Lockstep.after
  cases items.length with
  | zero => exact hr
  | succ n =>
    rw [Function.iterate_succ_apply']
    exact advance_ctr hr

theorem Answers.left {log log' : List Mark} {c : Call} {y : Bytes} (h : Answers log c y) :
    Answers (log ++ log') c y :=
  List.mem_append_left _ h

theorem Answers.right {log log' : List Mark} {c : Call} {y : Bytes} (h : Answers log' c y) :
    Answers (log ++ log') c y :=
  List.mem_append_right _ h

/-- Every record a log opens is one `sender` sealed; the rest it opens is of handshakes. -/
def opensCheck (sender receiver : List Mark) : Bool :=
  receiver.all fun
    | .done (.aeadOpen k n ct) (some r) =>
      match Link.okTail r with
      | none => true
      | some pt =>
        (sender.any fun
          | .sealed before frame ct' _ => before.key == some k && nonce before.epoch before.ctr == n &&
            frame == pt && ct' == ct
          | _ => false) ||
        (hashPairs receiver).any fun p => p.2 == k && handshakeLabels.any fun l => l.isSuffixOf p.1
    | _ => true

theorem session_records : ∀ l ∈ [LABEL_I2R, LABEL_R2I], l ∈ recordLabels := by decide

theorem opens_of_check {sender receiver : List Mark} {key : Bytes} (hh : Hashes (sender ++ receiver))
    (hk : SessionKey receiver key) (h : opensCheck sender receiver = true) : Opens sender receiver key := by
  refine ⟨hh, fun e k n ct pt hchain hopen => ?_⟩
  have hm := List.all_eq_true.mp h _ hopen
  simp only [Link.okTail, Bool.or_eq_true] at hm
  obtain hm | hm := hm
  · obtain ⟨m, hmem, hm⟩ := List.any_eq_true.mp hm
    cases m with
    | «sealed» before frame ct' after =>
      simp only [Bool.and_eq_true, beq_iff_eq] at hm
      obtain ⟨⟨⟨h1, h2⟩, rfl⟩, rfl⟩ := hm
      exact ⟨before, after, List.mem_append_left _ hmem, h1, h2⟩
    | _ => exact absurd hm (by simp)
  · obtain ⟨⟨x, y⟩, hmem, hpair⟩ := List.any_eq_true.mp hm
    simp only [Bool.and_eq_true, beq_iff_eq] at hpair
    obtain ⟨rfl, hlabel⟩ := hpair
    obtain ⟨l, hl, hsuf⟩ := List.any_eq_true.mp hlabel
    have hends : l <:+ x := List.isSuffixOf_iff_suffix.mp hsuf
    obtain ⟨z, rfl⟩ := hends
    have hkeyed : Keyed receiver l y := ⟨z, mem_hashPairs.mp hmem⟩
    obtain ⟨l₀, hl₀, hk₀⟩ := hk
    obtain ⟨l', hl', hk'⟩ := hchain.keyed ⟨l₀, session_records l₀ hl₀, hk₀⟩
    have hr := hh.of_subset (List.subset_append_right sender receiver)
    exact absurd (hr.label (handshake_mem hl) (record_mem hl') hkeyed hk') (labels_disjoint l hl l' hl')

/-- The keys of a log's session, the sending one first. -/
def sessionOf (log : List Mark) : Option (Bytes × Option Bytes × Bytes × Bytes) := log.findSome? fun
  | .session p t s r => some (p, t, s, r)
  | _ => none

theorem mem_of_sessionOf {log : List Mark} {p s r : Bytes} {t : Option Bytes}
    (h : sessionOf log = some (p, t, s, r)) :
    Mark.session p t s r ∈ log := by
  obtain ⟨m, hm, hr⟩ := List.exists_of_findSome?_eq_some h
  cases m with
  | session p' t' s' r' =>
    cases hr
    exact hm
  | _ => cases hr

/-- The two links of the run have the dialer's sending key in common. -/
theorem toy_sessions : ∃ pA tA key kr pB tB ks,
    Mark.session pA tA key kr ∈ Toy.dialer.world.marks ∧ Mark.session pB tB ks key ∈ Toy.acceptor.world.marks := by
  have h : ((sessionOf Toy.dialer.world.marks).map fun x => x.2.2.1) =
      ((sessionOf Toy.acceptor.world.marks).map fun x => x.2.2.2) ∧ (sessionOf Toy.dialer.world.marks).isSome := by
    decide +kernel
  obtain ⟨h1, h2⟩ := h
  obtain ⟨⟨pA, tA, key, kr⟩, hA⟩ := Option.isSome_iff_exists.mp h2
  rw [hA] at h1
  obtain ⟨⟨pB, tB, ks, key'⟩, hB, hkey⟩ := Option.map_eq_some_iff.mp h1.symm
  obtain rfl : key' = key := hkey
  exact ⟨pA, tA, key', kr, pB, tB, ks, mem_of_sessionOf hA, mem_of_sessionOf hB⟩

theorem toy_opens : opensCheck Toy.dialer.world.marks Toy.acceptor.world.marks = true := by decide +kernel

theorem toy_rekey : Toy.dialer.world.spec.rekeyAfterFrames = Toy.acceptor.world.spec.rekeyAfterFrames := by
  decide +kernel

namespace LinkMachine

variable {A B : LinkMachine} {pA pB kr ks key : Bytes} {tA tB : Option Bytes}

theorem Reachable.sender (h : A.Reachable) : Link.Sender A.world := by
  obtain ⟨_, hs, -⟩ | hs := h.speaks
  · exact hs.toSender
  · exact hs.toSender

theorem Reachable.safe (h : A.Reachable) : Link.Safe A.world ∨ A.world.marks = [] := by
  refine h.holds.world (P := fun l => Link.Safe l ∨ l.marks = []) (fun _ _ hy => .inl hy.1) fun l hi => ?_
  obtain hf | hr := hi
  · exact .inr hf.silent
  · exact .inl hr.safe

/-- A record the receiver took is one the sender sealed, at the same place and under the same key. -/
theorem accepted_sealed (hA : A.Reachable) (hB : B.Reachable) (hsA : Mark.session pA tA key kr ∈ A.world.marks)
    (hsB : Mark.session pB tB ks key ∈ B.world.marks) (hopens : Opens A.world.marks B.world.marks key) :
    ∀ x ∈ (acceptedRecs B.world.marks).map Rec.plain, x ∈ (sealedRecs A.world.marks).map Rec.plain := by
  intro x hx
  obtain ⟨r, hr, rfl⟩ := List.mem_map.mp hx
  obtain ⟨log, hlog, hlaw⟩ := hB.lawful.of_mem (mem_acceptedRecs.mp hr)
  obtain ⟨p, t, s, k₀, hmem, hrec⟩ := hlaw.record
  obtain ⟨-, rfl⟩ := hB.lawful.one_session (hlog.subset hmem) hsB
  obtain ⟨k, hk, hchain⟩ := hrec.keyed
  obtain ⟨k', ct, hk', hopen⟩ := hlaw.opened
  obtain rfl : k = k' := Option.some.inj (hk.symm.trans hk')
  have hchainB := hchain.longer hlog.subset
  obtain ⟨before, after, hsealed, hkey, hnonce⟩ := hopens.opens _ _ _ _ _ hchainB (hopen.longer hlog.subset)
  have hin : ∀ {m : Mark}, m ∈ B.world.marks → m ∈ A.world.marks ++ B.world.marks := List.mem_append_right _
  have hlawB := (hB.lawful.session hsB).longer (List.subset_append_right A.world.marks _)
  obtain ⟨hown, hpeer, hne⟩ := hopens.hashes.directions hlawB
  obtain hsealed | hsealed := List.mem_append.mp hsealed
  · obtain ⟨log', hlog', hlaw'⟩ := hA.lawful.of_mem hsealed
    obtain ⟨p', t', s', r', hmem', hrec'⟩ := hlaw'.record
    obtain ⟨rfl, -⟩ := hA.lawful.one_session (hlog'.subset hmem') hsA
    obtain ⟨k', hk', hchain'⟩ := hrec'.keyed
    obtain rfl : k = k' := Option.some.inj (hkey.symm.trans hk')
    have hsubA : log' ⊆ A.world.marks ++ B.world.marks :=
      List.Subset.trans hlog'.subset (List.subset_append_left _ _)
    obtain ⟨-, hepoch⟩ := hopens.hashes.meet hpeer hpeer (hchain'.longer hsubA)
      (hchainB.longer (List.subset_append_right A.world.marks _))
    -- Both counters fit their word, so the nonce tells them.
    have hctr : before.ctr = r.before.ctr := by
      have hepoch' : before.epoch = r.before.epoch := hepoch
      have hsmall := hA.sender.places ⟨before, r.text, after⟩ (mem_sealedRecs.mpr ⟨ct, hsealed⟩)
      have hloads := hB.sender.loads
      have hB32 : r.before.ctr < 2 ^ 32 := by
        have hend := (hB.lawful.of_prefix hlog).seamless.2
        have hat := hlaw.here.trans hend
        have hlt := after_ctr (γ := Pos × Bytes) hloads.1 ((acceptedRecs log).map Rec.plain)
        rw [← hat] at hlt
        exact hlt.trans_le hloads.2
      rw [hepoch'] at hnonce
      exact writeU32BE_inj hsmall hB32 (List.append_cancel_left hnonce)
    refine List.mem_map.mpr ⟨⟨before, r.text, after⟩, mem_sealedRecs.mpr ⟨ct, hsealed⟩, ?_⟩
    have hbefore : before = r.before := by
      cases hb : before with
      | mk e c k₁ =>
        rw [hb] at hctr hepoch hkey
        cases hr' : r.before with
        | mk e' c' k₂ =>
          rw [hr'] at hctr hepoch hk
          simp only at hctr hepoch hkey hk
          rw [hctr, hepoch, hkey, hk]
    rw [hbefore]
    rfl
  · obtain ⟨log', hlog', hlaw'⟩ := hB.lawful.of_mem hsealed
    obtain ⟨p', t', s', r', hmem', hrec'⟩ := hlaw'.record
    obtain ⟨rfl, -⟩ := hB.lawful.one_session (hlog'.subset hmem') hsB
    obtain ⟨k', hk', hchain'⟩ := hrec'.keyed
    obtain rfl : k = k' := Option.some.inj (hkey.symm.trans hk')
    have hsub : log' ⊆ A.world.marks ++ B.world.marks := fun m hm => hin (hlog'.subset hm)
    obtain ⟨he, -⟩ := hopens.hashes.meet hown hpeer (hchain'.longer hsub)
      (hchainB.longer (List.subset_append_right A.world.marks _))
    exact absurd he hne

/-- What the receiver took is a prefix of what the sender sealed. -/
theorem accepted_begins (hA : A.Reachable) (hB : B.Reachable) (hsA : Mark.session pA tA key kr ∈ A.world.marks)
    (hsB : Mark.session pB tB ks key ∈ B.world.marks)
    (hrekey : A.world.spec.rekeyAfterFrames = B.world.spec.rekeyAfterFrames)
    (hopens : Opens A.world.marks B.world.marks key) :
    (acceptedRecs B.world.marks).map Rec.plain <+: (sealedRecs A.world.marks).map Rec.plain := by
  have hforward := hA.lawful.forward
  rw [hrekey] at hforward
  refine hB.lawful.seamless.1.isPrefix (lt_advance _) hforward (fun y _ => ?_)
    (accepted_sealed hA hB hsA hsB hopens)
  obtain ⟨⟨e, c, k⟩, text⟩ := y
  simp [standing, Pos.place, Prod.Lex.le_iff]
  omega

/-- What it passed on is the text of these records, a goodbye the empty one. -/
theorem passed_accepted (hB : B.Reachable) (hsB : Mark.session pB tB ks key ∈ B.world.marks) :
    Link.Safe B.world ∧ framesOf B.world.marks ++ (if B.world.peerSaidGoodbye then [[]] else []) =
      ((acceptedRecs B.world.marks).map Rec.plain).map Prod.snd := by
  have hsafe : Link.Safe B.world := hB.safe.resolve_right fun hnil => by
    rw [hnil] at hsB
    exact List.not_mem_nil hsB
  refine ⟨hsafe, hsafe.passed.trans ?_⟩
  rw [List.map_map]
  rfl

/-- Whatever the wire drops, repeats, reorders, alters or puts in between, and however the calls at both ends
interleave: what a receiver took is a prefix of what the sender sealed, each record at the same place and under the
same key, and so are the frames it passed on with the goodbye behind them; between records it stands where the sender
stood after as many. -/
theorem records_in_step (hA : A.Reachable) (hB : B.Reachable) (hsA : Mark.session pA tA key kr ∈ A.world.marks)
    (hsB : Mark.session pB tB ks key ∈ B.world.marks)
    (hrekey : A.world.spec.rekeyAfterFrames = B.world.spec.rekeyAfterFrames)
    (hopens : Opens A.world.marks B.world.marks key) :
    (acceptedRecs B.world.marks).map Rec.plain <+: (sealedRecs A.world.marks).map Rec.plain ∧
      framesOf B.world.marks ++ (if B.world.peerSaidGoodbye then [[]] else []) <+:
        (sealedRecs A.world.marks).map Rec.text ∧
      (B.world.recvCtr < B.world.spec.rekeyAfterFrames → B.world.recvPos.place =
        endPlace ((sealedRecs A.world.marks).take (acceptedRecs B.world.marks).length)) := by
  have hplain := accepted_begins hA hB hsA hsB hrekey hopens
  obtain ⟨hsafe, hpassed⟩ := passed_accepted hB hsB
  refine ⟨hplain, ?_, fun hlt => ?_⟩
  · have htexts := hplain.map Prod.snd
    rw [← hpassed, List.map_map] at htexts
    exact htexts
  · have htake : ((sealedRecs A.world.marks).take (acceptedRecs B.world.marks).length).map Rec.plain =
        (acceptedRecs B.world.marks).map Rec.plain := by
      have hn : (acceptedRecs B.world.marks).length = ((acceptedRecs B.world.marks).map Rec.plain).length := by simp
      rw [List.map_take, hn]
      exact (List.prefix_iff_eq_take.mp hplain).symm
    have hmoved := hA.lawful.moved
    rw [hrekey] at hmoved
    rw [hsafe.recvHere hlt, hB.lawful.seamless.2, ← htake]
    refine (endPlace_seamless ?_ fun r hr => hmoved r (List.mem_of_mem_take hr)).symm
    rw [htake]
    exact hB.lawful.seamless.1

/-- The keys of the run's two links, with what its cipher opened. -/
theorem toy_pair : ∃ pA tA key kr pB tB ks, Mark.session pA tA key kr ∈ Toy.dialer.world.marks ∧
    Mark.session pB tB ks key ∈ Toy.acceptor.world.marks ∧
    Opens Toy.dialer.world.marks Toy.acceptor.world.marks key := by
  obtain ⟨pA, tA, key, kr, pB, tB, ks, hA, hB⟩ := toy_sessions
  have hkeys := (toy_hashes.of_subset (List.subset_append_right _ _)).directions
    (Toy.acceptor_reachable.lawful.session hB)
  exact ⟨pA, tA, key, kr, pB, tB, ks, hA, hB, opens_of_check toy_hashes hkeys.2.1 toy_opens⟩

theorem records_in_step_toy : [[6], [7], []] <+: (sealedRecs Toy.dialer.world.marks).map Rec.text := by
  obtain ⟨_, _, _, _, _, _, _, hA, hB, hopens⟩ := toy_pair
  have h := (records_in_step Toy.dialer_reachable Toy.acceptor_reachable hA hB toy_rekey hopens).2.1
  have hpassed : framesOf Toy.acceptor.world.marks ++ (if Toy.acceptor.world.peerSaidGoodbye then [[]] else []) =
      [[6], [7], []] := by
    decide +kernel
  rwa [hpassed] at h

theorem begins_to_last {α : Type} {xs ys : List α} {z : α} (h : xs ++ [z] <+: ys ++ [z]) (hz : z ∉ ys) : xs = ys := by
  obtain ⟨rest, hrest⟩ := h
  obtain rfl | ⟨init, w, rfl⟩ := List.eq_nil_or_concat' rest
  · rw [List.append_nil] at hrest
    exact List.append_cancel_right hrest
  · rw [← List.append_assoc] at hrest
    obtain ⟨hys, -⟩ := List.append_inj' hrest rfl
    refine absurd ?_ hz
    rw [← hys]
    simp

/-- A goodbye that came tells that the sender closed of its own accord, and that every frame it took, but those it
dropped before the authentication or still keeps to hand on, was passed on at the other end, in order. -/
theorem goodbye_complete (hA : A.Reachable) (hB : B.Reachable) (hsA : Mark.session pA tA key kr ∈ A.world.marks)
    (hsB : Mark.session pB tB ks key ∈ B.world.marks)
    (hrekey : A.world.spec.rekeyAfterFrames = B.world.spec.rekeyAfterFrames)
    (hopens : Opens A.world.marks B.world.marks key) (hbye : B.world.peerSaidGoodbye = true) :
    (∃ here ends, Mark.seals here [] ends ∈ A.world.marks ∧ Link.Deliberate ends) ∧
      A.world.closed = true ∧ A.world.accepted.drop A.world.shed = A.world.queue ++ framesOf B.world.marks := by
  have hprefix := (accepted_begins hA hB hsA hsB hrekey hopens).map Prod.snd
  rw [← (passed_accepted hB hsB).2, hbye, if_pos rfl, List.map_map] at hprefix
  have hmem : [] ∈ (sealedRecs A.world.marks).map Rec.text :=
    hprefix.subset (List.mem_append_right _ List.mem_cons_self)
  obtain ⟨r, hr, htext⟩ := List.mem_map.mp hmem
  obtain ⟨_, hsound, -⟩ | hsaid := hA.speaks
  · exact absurd htext (hsound.plain r hr)
  obtain ⟨here, ends, hseals⟩ := hsaid.said r hr htext
  refine ⟨⟨here, ends, hseals, hsaid.told here ends hseals⟩, hsaid.quiet.closed, ?_⟩
  obtain ⟨rs, last, hrecs, hlast, hwhole⟩ := hsaid.last
  have hall : ∀ t ∈ rs.map Rec.text, t ≠ [] := fun t ht => by
    obtain ⟨r', hr', rfl⟩ := List.mem_map.mp ht
    exact hwhole r' hr'
  have hframes : framesOf B.world.marks = rs.map Rec.text := by
    refine begins_to_last (z := []) ?_ fun hnil => hall [] hnil rfl
    rw [hrecs, List.map_append, List.map_singleton] at hprefix
    have hempty : (Prod.snd ∘ Rec.plain) last = [] := hlast
    rw [hempty] at hprefix
    exact hprefix
  have htexts : Link.textsOf A.world.marks = rs.map Rec.text := by
    unfold Link.textsOf
    rw [hrecs, List.map_append, List.map_singleton, hlast, List.filter_append]
    have hkeep : (rs.map Rec.text).filter (fun f => !f.isEmpty) = rs.map Rec.text :=
      List.filter_eq_self.mpr fun t ht => by simpa using hall t ht
    rw [hkeep]
    simp
  rw [hsaid.account.kept, htexts, Link.pendingOf_nil hsaid.quiet.records, hframes]
  simp

theorem goodbye_complete_toy : Toy.dialer.world.accepted.drop Toy.dialer.world.shed = Toy.dialer.world.queue ++
    framesOf Toy.acceptor.world.marks := by
  obtain ⟨_, _, _, _, _, _, _, hA, hB, hopens⟩ := toy_pair
  have hbye : Toy.acceptor.world.peerSaidGoodbye = true := by decide +kernel
  exact (goodbye_complete Toy.dialer_reachable Toy.acceptor_reachable hA hB toy_rekey hopens hbye).2.2

end LinkMachine

end SeedTransport
