import SeedTransport.Link.Rely

set_option autoImplicit false

namespace SeedTransport

/-! What the steps of a link can do to what the outside sees of it. A handshake works on
secrets and keys; all else it does is end the link, stall it, move its slot and remember a
probe. So whatever these few acts keep, every handshake keeps, at each of its waits. -/

open Async Async.Prog

/-- The marks that say a record is sealed, or a probe spent. -/
def Mark.told : Mark → Bool
  | .seals _ _ _ => true
  | .sealed _ _ _ _ => true
  | .probed _ => true
  | _ => false

namespace Link

/-- What a link's keys and its handshake have no part in. -/
structure Outer where
  node : Node
  spec : Spec
  authed : Bool
  peerSaidGoodbye : Bool
  closed : Bool
  parting : Bool
  stalled : Bool
  slot : Option Slot
  queue : List Bytes
  slices : Nat
  work : List Job
  sendEpoch : Nat
  sendCtr : Nat
  seenProbes : List Bytes
  told : List Mark
  effects : List Effect
  accepted : List Bytes
  shed : Nat
  ends : List Ending

def outer (l : Link) : Outer where
  node := l.node
  spec := l.spec
  authed := l.authed
  peerSaidGoodbye := l.peerSaidGoodbye
  closed := l.closed
  parting := l.parting
  stalled := l.stalled
  slot := l.slot
  queue := l.queue
  slices := l.outboundQueuedSlices
  work := l.work
  sendEpoch := l.sendEpoch
  sendCtr := l.sendCtr
  seenProbes := l.realm.seenProbes
  told := l.marks.filter Mark.told
  effects := l.effects
  accepted := l.accepted
  shed := l.shed
  ends := l.ends

theorem outer_mark {m : Mark} (h : m.told = false) (l : Link) : (l.mark m).outer = l.outer := by
  simp [outer, Link.mark, List.filter_append, List.filter_cons, h]

/-! ### What comes from outside -/

def sessionKeys (l : Link) : Option Bytes × Option Bytes := (l.sendKey, l.recvKey)

/-- Bytes a link refuses as they come in, before it has authenticated. -/
def Refusable : Input → Prop
  | .badFraming => True
  | .wire bytes => MAX_HANDSHAKE_FRAME_BYTES < bytes.length
  | _ => False

/-- What a call from outside can do to a link. -/
inductive Outside : Input → Link → Link → Prop
  | quiet {l l' : Link} (i : Input) (probes : List Bytes)
      (h : l'.outer = { l.outer with seenProbes := probes })
      (keys : l'.sessionKeys = l.sessionKeys) : Outside i l l'
  | message {l : Link} (i : Input) (m : Bytes) : Outside i l (l.enqueue (.message m))
  | record {l l' : Link} (frame : Bytes) (opened : l.closed = false) (authed : l.authed = true)
      (whole : frame ≠ []) (h : l'.outer = { l.outer with
        work := l.work ++ [.record frame]
        slices := l.outboundQueuedSlices + 1
        accepted := l.accepted ++ [frame] })
      (keys : l'.sessionKeys = l.sessionKeys) : Outside (.send frame) l l'
  | queued {l l' : Link} (frame : Bytes) (q : List Bytes) (opened : l.closed = false)
      (authed : l.authed = false) (whole : frame ≠ []) (kept : q <:+ l.queue ++ [frame])
      (h : l'.outer = { l.outer with
        queue := q
        accepted := l.accepted ++ [frame]
        shed := l.shed + ((l.queue ++ [frame]).length - q.length) })
      (keys : l'.sessionKeys = l.sessionKeys) : Outside (.send frame) l l'
  | ends {l l' : Link} (i : Input) (farewell defensive : Bool) (h : l'.outer = l.outer)
      (keys : l'.sessionKeys = l.sessionKeys) : Outside i l (l'.endLink farewell defensive)
  | evicted (l : Link) : Outside .evict l (l.loseSlot.abort false)
  | stalls {l : Link} (i : Input) (authed : l.authed = false) (refused : Refusable i) :
      Outside i l l.stall
  | lost {l : Link} (opened : l.closed = false) : Outside .channelClosed l l.onChannelClosed
  | handsOn (l : Link) : Outside .takeQueued l l.handOn

theorem send_outside (frame : Bytes) (l : Link) : Outside (.send frame) l (l.send frame) := by
  unfold send
  split
  · exact .quiet _ _ rfl rfl
  · rename_i hopen
    split
    · exact .quiet _ _ rfl rfl
    · split
      · exact .quiet _ _ rfl rfl
      · rename_i hlen
        have hwhole : frame ≠ [] := fun h0 => hlen (by simp [h0])
        split
        · rename_i hauthed
          split
          · exact .ends _ true false rfl rfl
          · split
            · exact .ends _ false false rfl rfl
            · exact .record frame (by simpa using hopen) hauthed hwhole rfl rfl
        · rename_i hauthed
          exact .queued frame _ (by simpa using hopen) (by simpa using hauthed) hwhole
            (dropOldest_suffix _ _ _) rfl rfl

theorem refuse_outside {i : Input} (l : Link) (hi : l.authed = false → Refusable i) :
    Outside i l l.refuse := by
  unfold refuse
  split
  · exact .ends i false true rfl rfl
  · rename_i hauthed
    have hauthed' : l.authed = false := by simpa using hauthed
    exact .stalls i hauthed' (hi hauthed')

theorem input_outside (i : Input) (l : Link) : Outside i l (l.input i) := by
  cases i with
  | send frame => exact send_outside frame l
  | close => exact .ends _ true false rfl rfl
  | abort => exact .ends _ false false rfl rfl
  | wire bytes =>
    simp only [input, onWire]
    by_cases hc : (l.closed || l.stalled) = true
    · rw [if_pos hc]
      exact .quiet _ _ rfl rfl
    · rw [if_neg hc]
      by_cases hlen : (if l.authed then l.node.maxFrameBytes else MAX_HANDSHAKE_FRAME_BYTES) < bytes.length
      · rw [if_pos hlen]
        refine refuse_outside l fun ha => ?_
        rw [ha] at hlen
        exact hlen
      · rw [if_neg hlen]
        exact .message _ bytes
  | deliver m => exact .message _ m
  | badFraming => exact refuse_outside l fun _ => trivial
  | wake t =>
    simp only [input, onWake]
    split
    · exact .quiet _ _ rfl rfl
    · split
      · exact .quiet _ _ rfl rfl
      · split
        · exact .quiet _ _ rfl rfl
        · split
          · exact .ends _ false false rfl rfl
          · split
            · exact .quiet _ _ rfl rfl
            · split
              · exact .quiet _ _ rfl rfl
              · exact .ends _ true false rfl rfl
  | channelClosed =>
    by_cases hc : l.closed = true
    · have : l.input .channelClosed = l := by simp [input, onChannelClosed, hc]
      rw [this]
      exact .quiet _ _ rfl rfl
    · exact .lost (by simpa using hc)
  | evict => exact .evicted l
  | takeQueued => exact .handsOn l
  | realm r => exact .quiet _ r.seenProbes rfl rfl

/-- The terms of a proof about the interleavings of a link. -/
def under (R : Link → Link → Prop) (Y : Call → Link → Prop) : Terms Link Call Bytes :=
  { Link.system.toNotes with rely := R, yields := Y }

/-- What survives the outside, the work on keys and secrets, and the end of the link. -/
structure Acts (R : Link → Link → Prop) (Y : Call → Link → Prop) (I : Link → Prop) : Prop where
  rely : ∀ l l', R l l' → I l → I l'
  yields : ∀ c l, I l → Y c (l.mark (.asked c))
  quiet : ∀ l l', l'.outer = l.outer → I l → I l'
  ends : ∀ farewell defensive l, I l → I (l.endLink farewell defensive)

/-- What survives a handshake as well. -/
structure Handshakes (R : Link → Link → Prop) (Y : Call → Link → Prop) (I : Link → Prop) : Prop
    extends Acts R Y I where
  stalls : ∀ l, I l → I l.stall
  tiers : ∀ tier max l, I l → I (l.moveTier tier max)
  remembers : ∀ eph l, l.probeSeen eph = false → I l → I ((l.rememberProbe eph).mark (.probed eph))

/-- What survives the records that go out. -/
structure Seals (R : Link → Link → Prop) (Y : Call → Link → Prop) (I : Link → Prop) : Prop
    extends Acts R Y I where
  tiers : ∀ tier max l, I l → I (l.moveTier tier max)
  takes : ∀ l, I l → I l.takeQueued
  sends : ∀ e c l, I l → I { l with sendEpoch := e, sendCtr := c }
  tells : ∀ m l, I l → I (l.mark m)
  frees : ∀ n l, I l → I { l with outboundQueuedSlices := n }

/-- What survives every step but the farewell. -/
structure Records (R : Link → Link → Prop) (Y : Call → Link → Prop) (I : Link → Prop) : Prop
    extends Handshakes R Y I, Seals R Y I where
  auths : ∀ l, l.closed = false → I l → I { l with authed := true }
  parts : ∀ l, I l → I { l with peerSaidGoodbye := true }

namespace Acts

variable {R : Link → Link → Prop} {Y : Call → Link → Prop} {I : Link → Prop}

theorem marks (h : Acts R Y I) {m : Mark} (hm : m.told = false) (l : Link) (hl : I l) :
    I (l.mark m) := h.quiet l _ (outer_mark hm l) hl

theorem stable (h : Acts R Y I) : (under R Y).Stable I where
  yields := h.yields
  rely _ l l' hl hr := h.rely _ l' hr (h.marks rfl l hl)
  answer _ _ l hl := h.marks rfl l hl

theorem call (h : Acts R Y I) (c : Call) : Keeps (under R Y) I (Prog.call c : LinkProg Bytes) :=
  keeps_call h.stable c

theorem abort (h : Acts R Y I) (defensive : Bool) :
    Keeps (under R Y) I (Prog.modify (Link.abort defensive) : LinkProg Unit) :=
  keeps_modify fun l hl => h.ends false defensive l hl

theorem aeadDec (h : Acts R Y I) (key npub ct : Bytes) :
    Keeps (under R Y) I (Link.aeadDec key npub ct) :=
  keeps_bind (h.call _) fun _ => keeps_pure _

theorem wire (h : Acts R Y I) (msg : Bytes) : Keeps (under R Y) I (Link.wire msg) :=
  keeps_bind (h.call _) fun _ => keeps_pure _

theorem ratchet (h : Acts R Y I) (k : Option Bytes) : Keeps (under R Y) I (Link.ratchet k) :=
  keeps_bind (keeps_need _) fun _ => h.call _

/-- Records come in; one of them may be the peer's goodbye. -/
theorem onRecord (h : Acts R Y I) (hparts : ∀ l, I l → I (close { l with peerSaidGoodbye := true }))
    (body : Bytes) : Keeps (under R Y) I (Link.onRecord body) := by
  have quiet : ∀ {f : Link → Link}, (∀ l, (f l).outer = l.outer) →
      Keeps (under R Y) I (Prog.modify f : LinkProg Unit) := fun hf =>
    keeps_modify fun l hl => h.quiet l _ (hf l) hl
  refine keeps_bind keeps_get fun l => keeps_ite (h.abort true) (keeps_ite (h.abort false)
    (keeps_bind (keeps_need _) fun key => keeps_bind (h.aeadDec _ _ _) fun r => ?_))
  cases r with
  | none => exact h.abort true
  | some pt =>
    refine keeps_bind (quiet fun l => rfl) fun _ => keeps_bind ?_ fun _ =>
      keeps_bind (keeps_modify fun l hl => h.marks rfl l hl) fun _ => keeps_ite ?_ ?_
    · refine keeps_bind (quiet fun l => rfl) fun _ => keeps_bind keeps_get fun l => keeps_ite ?_ (keeps_pure _)
      exact keeps_bind (h.ratchet _) fun _ => quiet fun l => rfl
    · exact fun l hl => hparts l hl
    · exact keeps_bind keeps_get fun l => keeps_bind (h.call _) fun _ => keeps_pure _

/-! ### The seam helpers -/

theorem verify (h : Acts R Y I) (pk sig msg : Bytes) :
    Keeps (under R Y) I (Link.verify pk sig msg) :=
  keeps_bind (h.call _) fun _ => keeps_pure _

theorem scalarmult (h : Acts R Y I) (sk pk : Bytes) :
    Keeps (under R Y) I (Link.scalarmult sk pk) :=
  keeps_bind (h.call _) fun _ => keeps_pure _

theorem boxKeypair (h : Acts R Y I) : Keeps (under R Y) I Link.boxKeypair :=
  keeps_bind (h.call _) fun _ => keeps_bind (h.scalarmult _ _) fun _ =>
    keeps_bind (keeps_need _) fun _ => keeps_pure _

theorem kemKeypair (h : Acts R Y I) (seed : Bytes) :
    Keeps (under R Y) I (Link.kemKeypair seed) :=
  keeps_bind (h.call _) fun _ => keeps_ite keeps_fail (keeps_pure _)

theorem kemEncaps (h : Acts R Y I) (pk coins : Bytes) :
    Keeps (under R Y) I (Link.kemEncaps pk coins) :=
  keeps_bind (h.call _) fun _ => keeps_pure _

theorem kemDecaps (h : Acts R Y I) (sk ct : Bytes) :
    Keeps (under R Y) I (Link.kemDecaps sk ct) :=
  keeps_bind (h.call _) fun _ => keeps_pure _

theorem keySecret (h : Acts R Y I) : Keeps (under R Y) I Link.keySecret := by
  have hset : ∀ k, Keeps (under R Y) I (Prog.modify (setOwnKeySecret k) : LinkProg Unit) :=
    fun k => keeps_modify fun l hl => h.quiet l _ rfl hl
  refine keeps_bind keeps_get fun l => ?_
  cases l.realm.ownKeySecret with
  | known secret => exact keeps_bind (keeps_turn h.stable _) fun _ => keeps_pure _
  | asked => exact h.call _
  | absent =>
    refine keeps_bind (hset _) fun _ => keeps_attempt ?_ ?_
    · exact keeps_bind (h.call _) fun _ => keeps_bind (h.call _) fun _ =>
        keeps_bind (hset _) fun _ => keeps_pure _
    · exact keeps_bind (hset _) fun _ => keeps_fail

theorem ownSecret (h : Acts R Y I) : Keeps (under R Y) I Link.ownSecret := by
  refine keeps_bind keeps_get fun l => ?_
  cases l.realm.contactSecret with
  | some secret => exact keeps_bind (keeps_turn h.stable _) fun _ => keeps_pure _
  | none => exact h.keySecret

theorem acceptSecrets (h : Acts R Y I) : Keeps (under R Y) I Link.acceptSecrets := by
  refine keeps_bind keeps_get fun l => ?_
  cases l.spec.acceptSecrets with
  | own secrets => exact keeps_bind (keeps_turn h.stable _) fun _ => keeps_pure _
  | node => exact keeps_bind h.ownSecret fun _ => keeps_bind keeps_get fun _ => keeps_pure _

/-! ### The handshake -/

theorem kdf (h : Acts R Y I) (ikm : List (Option Bytes)) (ctx : Option Bytes)
    (label : Bytes) : Keeps (under R Y) I (Link.kdf ikm ctx label) :=
  keeps_bind (keeps_need _) fun _ => keeps_bind keeps_get fun _ => keeps_bind (keeps_need _) fun _ =>
    keeps_bind (keeps_need _) fun _ => h.call _

theorem sealZero (h : Acts R Y I) (key plain : Bytes) :
    Keeps (under R Y) I (Link.sealZero key plain) := h.call _

theorem openZero (h : Acts R Y I) (key ct : Bytes) :
    Keeps (under R Y) I (Link.openZero key ct) := h.aeadDec _ _ _

theorem probeContext (h : Acts R Y I) (suiteByte ephI kemPkI : Bytes) :
    Keeps (under R Y) I (Link.probeContext suiteByte ephI kemPkI) :=
  keeps_bind keeps_get fun _ => keeps_bind (keeps_need _) fun _ => h.call _

theorem signTranscript (h : Acts R Y I) (th : Bytes) :
    Keeps (under R Y) I (Link.signTranscript th) := by
  refine keeps_attempt ?_ ?_
  · exact keeps_bind keeps_get fun _ => keeps_bind (keeps_need _) fun _ =>
      keeps_bind (h.call _) fun _ => keeps_pure _
  · exact keeps_bind (h.abort false) fun _ => keeps_pure _

theorem ensureKeys (h : Acts R Y I) : Keeps (under R Y) I Link.ensureKeys := by
  refine keeps_bind (keeps_bind keeps_get fun l => keeps_ite ?_ (keeps_pure _)) fun _ =>
    keeps_bind keeps_get fun l => keeps_ite ?_ (keeps_pure _)
  · exact keeps_bind h.boxKeypair fun _ => keeps_modify fun l hl => h.quiet l _ rfl hl
  · exact keeps_bind (h.call _) fun _ => keeps_bind (h.kemKeypair _) fun _ =>
      keeps_modify fun l hl => h.quiet l _ rfl hl

theorem sendMsg1 (h : Acts R Y I) : Keeps (under R Y) I Link.sendMsg1 := by
  refine keeps_bind keeps_get fun l => keeps_bind (keeps_need _) fun myEph =>
    keeps_bind (keeps_need _) fun myKem => ?_
  refine keeps_bind (h.probeContext _ _ _) fun ctx => keeps_bind (h.kdf _ _ _) fun key =>
    keeps_bind (h.sealZero _ _) fun tag => ?_
  refine keeps_bind keeps_get fun l => keeps_bind (keeps_need _) fun root =>
    keeps_bind (h.call _) fun th => ?_
  exact keeps_bind (keeps_modify fun l hl => h.quiet l _ rfl hl) fun _ => h.wire _

theorem tryProbe (h : Acts R Y I) (ctx tag : Bytes) (secrets : List Bytes) :
    Keeps (under R Y) I (Link.tryProbe ctx tag secrets) := by
  induction secrets with
  | nil => exact keeps_pure _
  | cons secret secrets ih =>
    refine keeps_bind (keeps_modify fun l hl => h.quiet l _ rfl hl) fun _ =>
      keeps_bind (h.kdf _ _ _) fun key => keeps_bind (h.openZero _ _) fun r => ?_
    exact keeps_ite (keeps_pure _) ih

theorem derive (h : Acts R Y I) : Keeps (under R Y) I deriveConcealedSession := by
  have quiet : ∀ {f : Link → Link}, (∀ l, (f l).outer = l.outer) →
      Keeps (under R Y) I (Prog.modify f : LinkProg Unit) := fun hf =>
    keeps_modify fun l hl => h.quiet l _ (hf l) hl
  refine keeps_bind keeps_get fun l => keeps_bind (h.kdf _ _ _) fun i2r =>
    keeps_bind (quiet fun l => ?_) fun _ => keeps_bind keeps_get fun l =>
    keeps_bind (h.kdf _ _ _) fun r2i => keeps_bind (quiet fun l => ?_) fun _ =>
    keeps_bind (keeps_modify fun l hl => h.marks ?_ l hl) fun _ => quiet fun l => rfl
  · split <;> rfl
  · split <;> rfl
  · split <;> rfl

theorem answerMsg2_leads (h : Acts R Y I) {Q : Link → Prop} (hQ : ∀ l, I l → Q l)
    (hauth : Leads (under R Y) I Q becomeAuthed) (w2 : Bytes) : Leads (under R Y) I Q (Link.answerMsg2 w2) := by
  refine leads_bind hQ keeps_get fun l => leads_bind hQ (keeps_need _) fun th =>
    leads_bind hQ (h.call _) fun h2 => leads_bind hQ (h.signTranscript _) fun sig => ?_
  cases sig with
  | none => exact (keeps_pure _).leads hQ
  | some sig =>
    refine leads_bind hQ keeps_get fun l => leads_bind hQ (h.kdf _ _ _) fun key =>
      leads_bind hQ (h.sealZero _ _) fun w3 => leads_bind hQ (h.call _) fun th =>
      leads_bind hQ (keeps_modify fun l hl => h.quiet l _ rfl hl) fun _ => leads_bind hQ (keeps_attempt
        (keeps_bind h.derive fun _ => keeps_pure _)
        (keeps_bind (h.abort false) fun _ => keeps_pure _)) fun derived => ?_
    exact leads_ite (leads_bind hQ (h.wire _) fun _ => hauth) ((keeps_pure _).leads hQ)

theorem answerMsg2 (h : Acts R Y I) (hauth : Keeps (under R Y) I becomeAuthed) (w2 : Bytes) :
    Keeps (under R Y) I (Link.answerMsg2 w2) :=
  h.answerMsg2_leads (fun _ hl => hl) hauth w2

theorem openIdentity (h : Acts R Y I) (key ct th : Bytes) :
    Keeps (under R Y) I (Link.openIdentity key ct th) := by
  refine keeps_bind (h.openZero _ _) fun r => ?_
  cases r with
  | none => exact keeps_pure _
  | some plain =>
    exact keeps_bind keeps_get fun l => keeps_bind (keeps_need _) fun root =>
      keeps_bind (h.verify _ _ _) fun good => keeps_ite (keeps_pure _)
        (keeps_ite (keeps_pure _) (keeps_pure _))

theorem boot (h : Acts R Y I) : Keeps (under R Y) I Link.boot := by
  have quiet : ∀ {f : Link → Link}, (∀ l, (f l).outer = l.outer) →
      Keeps (under R Y) I (Prog.modify f : LinkProg Unit) := fun hf =>
    keeps_modify fun l hl => h.quiet l _ (hf l) hl
  refine keeps_attempt (keeps_bind keeps_get fun l => keeps_bind (h.call _) fun root =>
    keeps_bind (quiet fun l => rfl) fun _ => keeps_bind keeps_get fun l => keeps_ite ?_ ?_) (h.abort false)
  · exact keeps_bind h.ensureKeys fun _ => keeps_bind (quiet fun l => rfl) fun _ => h.sendMsg1
  · exact quiet fun l => rfl

end Acts

namespace Handshakes

variable {R : Link → Link → Prop} {Y : Call → Link → Prop} {I : Link → Prop}

theorem stall (h : Handshakes R Y I) : Keeps (under R Y) I (Prog.modify Link.stall : LinkProg Unit) :=
  keeps_modify h.stalls

theorem answerMsg1 (h : Handshakes R Y I) (w1 ephI kemPkI : Bytes) :
    Keeps (under R Y) I (Link.answerMsg1 w1 ephI kemPkI) := by
  have quiet : ∀ {f : Link → Link}, (∀ l, (f l).outer = l.outer) →
      Keeps (under R Y) I (Prog.modify f : LinkProg Unit) := fun hf =>
    keeps_modify fun l hl => h.quiet l _ (hf l) hl
  refine keeps_bind h.ensureKeys fun _ => keeps_bind keeps_get fun l =>
    keeps_bind (keeps_need _) fun myEph => keeps_bind (h.scalarmult _ _) fun dh => ?_
  cases dh with
  | none => exact h.stall
  | some x =>
    refine keeps_bind (quiet fun l => rfl) fun _ => keeps_bind (h.call _) fun coins =>
      keeps_bind (h.kemEncaps _ _) fun kem => ?_
    cases kem with
    | none => exact h.stall
    | some ctss =>
      refine keeps_bind (quiet fun l => rfl) fun _ => keeps_bind keeps_get fun l =>
        keeps_bind (keeps_need _) fun root => keeps_bind (h.call _) fun h1 =>
        keeps_bind keeps_get fun l => keeps_bind (keeps_need _) fun myEph =>
        keeps_bind (h.call _) fun hs => keeps_bind (h.signTranscript _) fun sig => ?_
      cases sig with
      | none => exact keeps_pure _
      | some sig =>
        exact keeps_bind keeps_get fun l => keeps_bind (h.kdf _ _ _) fun key =>
          keeps_bind (h.sealZero _ _) fun tail => keeps_bind (h.call _) fun th =>
          keeps_bind (quiet fun l => rfl) fun _ => h.wire _

theorem onMsg1 (h : Handshakes R Y I) (w1 : Bytes) : Keeps (under R Y) I (Link.onMsg1 w1) := by
  refine keeps_ite h.stall (keeps_bind (keeps_attempt
    (keeps_bind h.acceptSecrets fun _ => keeps_pure _) (keeps_pure _)) fun secrets => ?_)
  cases secrets with
  | none => exact h.stall
  | some secrets =>
    refine keeps_bind (keeps_modify (h.marks rfl)) fun _ => keeps_bind (h.probeContext _ _ _) fun ctx =>
      keeps_bind (h.tryProbe _ _ _) fun proved => keeps_ite h.stall (keeps_get_bind fun s hs => ?_)
    -- The check and the remembering are one stretch: nothing comes between them.
    rw [wp_ite]
    refine ⟨fun _ => h.stalls s hs, fun hunseen => ?_⟩
    rw [wp_ite]
    refine ⟨fun _ => h.stalls s hs, fun _ => ?_⟩
    rw [wp_bind, wp_modify, wp_bind, wp_modify, wp_bind, wp_modify]
    have hspent := h.remembers (slice w1 SUITE_LEN (SUITE_LEN + EPH_LEN)) _
      (by simpa [probeSeen, moveTier] using hunseen) (h.tiers .verified s.node.maxVerified s hs)
    exact h.answerMsg1 _ _ _ _ (h.quiet (Link.mark _ _) _ rfl hspent)

theorem onMsg2_leads (h : Handshakes R Y I) {Q : Link → Prop} (hQ : ∀ l, I l → Q l)
    (hauth : Leads (under R Y) I Q becomeAuthed) (w2 : Bytes) : Leads (under R Y) I Q (Link.onMsg2 w2) := by
  have quiet : ∀ {f : Link → Link}, (∀ l, (f l).outer = l.outer) →
      Keeps (under R Y) I (Prog.modify f : LinkProg Unit) := fun hf =>
    keeps_modify fun l hl => h.quiet l _ (hf l) hl
  refine leads_ite (h.stall.leads hQ) (leads_bind hQ keeps_get fun l => leads_bind hQ (keeps_need _) fun myEph =>
    leads_bind hQ (h.scalarmult _ _) fun dh => ?_)
  cases dh with
  | none => exact h.stall.leads hQ
  | some x =>
    refine leads_bind hQ (quiet fun l => rfl) fun _ => leads_bind hQ keeps_get fun l =>
      leads_bind hQ (keeps_need _) fun myKem => leads_bind hQ (h.kemDecaps _ _) fun kem => ?_
    cases kem with
    | none => exact h.stall.leads hQ
    | some ss =>
      refine leads_bind hQ (quiet fun l => rfl) fun _ => leads_bind hQ keeps_get fun l =>
        leads_bind hQ (keeps_need _) fun th => leads_bind hQ (h.call _) fun hs => leads_bind hQ keeps_get fun l =>
        leads_bind hQ (h.kdf _ _ _) fun key => leads_bind hQ (h.openZero _ _) fun r => ?_
      cases r with
      | none => exact h.stall.leads hQ
      | some sig =>
        refine leads_bind hQ keeps_get fun l => leads_ite ((h.abort false).leads hQ)
          (leads_bind hQ (keeps_need _) fun root => leads_bind hQ (h.verify _ _ _) fun good =>
            leads_ite ((h.abort true).leads hQ) (leads_ite ((h.abort true).leads hQ) ?_))
        exact leads_bind hQ (quiet fun l => rfl) fun _ => h.answerMsg2_leads hQ hauth w2

theorem onMsg2 (h : Handshakes R Y I) (hauth : Keeps (under R Y) I becomeAuthed) (w2 : Bytes) :
    Keeps (under R Y) I (Link.onMsg2 w2) :=
  h.onMsg2_leads (fun _ hl => hl) hauth w2

theorem onMsg3_leads (h : Handshakes R Y I) {Q : Link → Prop} (hQ : ∀ l, I l → Q l)
    (hauth : Leads (under R Y) I Q becomeAuthed) (w3 : Bytes) : Leads (under R Y) I Q (Link.onMsg3 w3) := by
  refine leads_ite (h.stall.leads hQ) (leads_bind hQ keeps_get fun l => leads_bind hQ (h.kdf _ _ _) fun key =>
    leads_bind hQ keeps_get fun l => leads_bind hQ (keeps_need _) fun th =>
    leads_bind hQ (h.openIdentity _ _ _) fun id => ?_)
  cases id with
  | none => exact h.stall.leads hQ
  | some idI =>
    refine leads_bind hQ keeps_get fun l => leads_ite ((h.abort true).leads hQ) ?_
    refine leads_bind hQ (keeps_modify fun l hl => h.quiet l _ rfl hl) fun _ =>
      leads_bind hQ (h.call _) fun th' => leads_bind hQ (keeps_modify fun l hl => h.quiet l _ rfl hl) fun _ =>
      leads_bind hQ (keeps_attempt (keeps_bind h.derive fun _ => keeps_pure _)
        (keeps_bind h.stall fun _ => keeps_pure _)) fun derived => ?_
    exact leads_ite hauth ((keeps_pure _).leads hQ)

theorem onMsg3 (h : Handshakes R Y I) (hauth : Keeps (under R Y) I becomeAuthed) (w3 : Bytes) :
    Keeps (under R Y) I (Link.onMsg3 w3) :=
  h.onMsg3_leads (fun _ hl => hl) hauth w3

end Handshakes

namespace Seals

variable {R : Link → Link → Prop} {Y : Call → Link → Prop} {I : Link → Prop}

theorem sealFrame (h : Seals R Y I) (frame : Bytes) :
    Keeps (under R Y) I (Link.sealFrame frame) := by
  refine keeps_bind keeps_get fun l => keeps_bind (keeps_need _) fun key =>
    keeps_bind (keeps_modify fun l hl => h.tells _ l hl) fun _ => keeps_bind keeps_get fun l =>
    keeps_bind (h.call _) fun ct => keeps_bind (keeps_modify fun l hl => ?_) fun _ =>
    keeps_bind keeps_get fun l' => keeps_ite ?_ ?_
  · exact h.sends l.sendEpoch (l.sendCtr + 1) l hl
  · refine keeps_bind (h.ratchet _) fun next => keeps_bind (keeps_modify fun l hl => ?_) fun _ =>
      keeps_bind (keeps_modify fun l hl => h.tells _ l hl) fun _ => keeps_pure _
    exact h.sends (l.sendEpoch + 1) 0 { l with sendKey := some next } (h.quiet l _ rfl hl)
  · exact keeps_bind (keeps_modify fun l hl => h.tells _ l hl) fun _ => keeps_pure _

theorem wireRecord (h : Seals R Y I) (frame : Bytes) :
    Keeps (under R Y) I (Link.wireRecord frame) :=
  keeps_attempt (keeps_bind (h.sealFrame frame) fun _ => h.wire _) (h.abort false)

theorem flush (h : Seals R Y I) (frames : List Bytes) :
    Keeps (under R Y) I (Link.flush frames) := by
  induction frames with
  | nil => exact keeps_pure _
  | cons frame frames ih => exact keeps_bind (h.wireRecord frame) fun _ => ih

theorem becomeAuthed (h : Seals R Y I) {s : Link} (hs : I s)
    (hauths : s.closed = false → I { s with authed := true }) :
    Link.becomeAuthed.wp (under R Y) (fun _ => I) I s := by
  unfold Link.becomeAuthed
  rw [wp_bind, wp_get, wp_ite]
  refine ⟨fun _ => hs, fun hopen => ?_⟩
  rw [wp_bind, wp_modify]
  have hs' := hauths (by simpa using hopen)
  revert hs'
  generalize { s with authed := true } = t
  refine fun ht => keeps_bind keeps_get (fun l => keeps_ite (h.abort false) ?_) t ht
  refine keeps_bind (keeps_modify fun l hl => h.tiers _ _ l hl) fun _ =>
    keeps_bind (keeps_modify fun l hl => h.quiet l (armIdle l) rfl hl) fun _ =>
    keeps_bind (h.call _) fun _ => keeps_bind keeps_get fun l => keeps_ite (keeps_pure _) ?_
  exact keeps_bind (keeps_modify h.takes) fun _ => h.flush _

theorem sendRecord (h : Seals R Y I) (frame : Bytes) :
    Keeps (under R Y) I (Link.sendRecord frame) := by
  refine keeps_ensuring (keeps_bind keeps_get fun l => keeps_ite (keeps_pure _) (h.wireRecord frame)) ?_
  intro l hl
  exact h.quiet { l with outboundQueuedSlices := l.outboundQueuedSlices - 1 } _ rfl (h.frees _ l hl)

/-- A goodbye that fails is only not said. -/
theorem sayGoodbye (h : Seals R Y I) {E : Link → Prop} {s : Link} (hs : I s) :
    Link.sayGoodbye.wp (under R Y) (fun _ => I) E s := by
  unfold Link.sayGoodbye
  rw [wp_bind, wp_get, wp_ite]
  refine ⟨fun _ => ?_, fun _ => hs⟩
  have said : Keeps (under R Y) I (do
      let ct ← Link.sealFrame EMPTY
      Link.wire ct
      if s.spec.framerGoodbye then
        let _ ← Prog.call Call.framerGoodbye
        return true
      else return true : LinkProg Bool) :=
    keeps_bind (h.sealFrame EMPTY) fun ct => keeps_bind (h.wire _) fun _ =>
      keeps_ite (keeps_bind (h.call _) fun _ => keeps_pure _) (keeps_pure _)
  exact (wp_attempt _ _).2 (wp_mono (said s hs) (fun _ _ ht => ht) fun _ ht => ht)

end Seals

namespace Records

variable {R : Link → Link → Prop} {Y : Call → Link → Prop} {I : Link → Prop}

theorem authed (h : Records R Y I) : Keeps (under R Y) I Link.becomeAuthed :=
  fun _ hs => h.becomeAuthed hs fun hopen => h.auths _ hopen hs

theorem onMessage (h : Records R Y I) (m : Bytes) : Keeps (under R Y) I (Link.onMessage m) := by
  have hrefuse : ∀ l, I l → I l.refuse := by
    intro l hl
    unfold refuse
    split
    · exact h.ends false true l hl
    · exact h.stalls l hl
  refine keeps_bind keeps_get fun l => keeps_ite (keeps_pure _) (keeps_bind
    (keeps_modify (h.marks rfl)) fun _ => keeps_attempt ?_ (keeps_modify hrefuse))
  refine keeps_bind keeps_get fun l => keeps_ite ?_ (keeps_ite (h.onMsg2 h.authed m)
    (keeps_ite (h.onMsg3 h.authed m) (h.onMsg1 m)))
  exact h.onRecord (fun l hl => h.ends true false _ (h.parts l hl)) m

/-- Whatever all acts keep, every job but the farewell keeps. -/
theorem body (h : Records R Y I) {j : Job} (hj : j ≠ .farewell) : Keeps (under R Y) I (Link.body j) := by
  cases j with
  | boot => exact h.boot
  | message m => exact h.onMessage m
  | record frame => exact h.sendRecord frame
  | farewell => exact absurd rfl hj

end Records

end Link

end SeedTransport
