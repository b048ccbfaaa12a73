import SeedTransport.Link.Acts

set_option autoImplicit false

namespace SeedTransport

/-! The parts of a link's steps that store no secret and end nothing: what they are steady
in, they keep through each of their waits. -/

open Async Async.Prog

namespace Link

/-- What a step stores, and what its end turns on. -/
structure Inner where
  spec : Spec
  authed : Bool
  closed : Bool
  parting : Bool
  stalled : Bool
  work : List Job
  peerEph : Option Bytes
  sendKey : Option Bytes
  recvKey : Option Bytes
  ee : Option Bytes
  kemSecret : Option Bytes
  myEph : Option KeyPair
  myKem : Option KeyPair

def inner (l : Link) : Inner where
  spec := l.spec
  authed := l.authed
  closed := l.closed
  parting := l.parting
  stalled := l.stalled
  work := l.work
  peerEph := l.peerEph
  sendKey := l.sendKey
  recvKey := l.recvKey
  ee := l.ee
  kemSecret := l.kemSecret
  myEph := l.myEph
  myKem := l.myKem

/-- Nothing is stored and nothing ends. -/
structure Still (l l' : Link) : Prop where
  inner : l'.inner = l.inner
  marks : l.marks <+: l'.marks

theorem Still.mark (m : Mark) (l : Link) : Still l (l.mark m) := ⟨rfl, List.prefix_append _ _⟩

/-- What survives every wait, and the work that stores nothing. -/
structure Steady (R : Link → Link → Prop) (Y : Call → Link → Prop) (I : Link → Prop) : Prop where
  yields : ∀ c l, I l → Y c (l.mark (.asked c))
  rely : ∀ c l l', I l → R (l.mark (.asked c)) l' → I l'
  still : ∀ l l', Still l l' → I l → I l'

namespace Steady

variable {R : Link → Link → Prop} {Y : Call → Link → Prop} {I : Link → Prop}

theorem stable (h : Steady R Y I) : (under R Y).Stable I where
  yields := h.yields
  rely := h.rely
  answer _ _ l hl := h.still _ _ (Still.mark _ l) hl

theorem call (h : Steady R Y I) (c : Call) : Keeps (under R Y) I (Prog.call c : LinkProg Bytes) :=
  keeps_call h.stable c

theorem quiet (h : Steady R Y I) {f : Link → Link} (hf : ∀ l, Still l (f l)) :
    Keeps (under R Y) I (Prog.modify f : LinkProg Unit) :=
  keeps_modify fun l hl => h.still _ _ (hf l) hl

theorem aeadDec (h : Steady R Y I) (key npub ct : Bytes) : Keeps (under R Y) I (Link.aeadDec key npub ct) :=
  keeps_bind (h.call _) fun _ => keeps_pure _

theorem verify (h : Steady R Y I) (pk sig msg : Bytes) : Keeps (under R Y) I (Link.verify pk sig msg) :=
  keeps_bind (h.call _) fun _ => keeps_pure _

theorem wire (h : Steady R Y I) (msg : Bytes) : Keeps (under R Y) I (Link.wire msg) :=
  keeps_bind (h.call _) fun _ => keeps_pure _

theorem kdf (h : Steady R Y I) (ikm : List (Option Bytes)) (ctx : Option Bytes) (label : Bytes) :
    Keeps (under R Y) I (Link.kdf ikm ctx label) :=
  keeps_bind (keeps_need _) fun _ => keeps_bind keeps_get fun _ => keeps_bind (keeps_need _) fun _ =>
    keeps_bind (keeps_need _) fun _ => h.call _

theorem probeContext (h : Steady R Y I) (suiteByte ephI kemPkI : Bytes) :
    Keeps (under R Y) I (Link.probeContext suiteByte ephI kemPkI) :=
  keeps_bind keeps_get fun _ => keeps_bind (keeps_need _) fun _ => h.call _

theorem keySecret (h : Steady R Y I) : Keeps (under R Y) I Link.keySecret := by
  have hset : ∀ k, Keeps (under R Y) I (Prog.modify (setOwnKeySecret k) : LinkProg Unit) :=
    fun k => h.quiet fun l => ⟨rfl, List.prefix_refl _⟩
  refine keeps_bind keeps_get fun l => ?_
  cases l.realm.ownKeySecret with
  | known secret => exact keeps_bind (keeps_turn h.stable _) fun _ => keeps_pure _
  | asked => exact h.call _
  | absent =>
    refine keeps_bind (hset _) fun _ => keeps_attempt ?_ ?_
    · exact keeps_bind (h.call _) fun _ => keeps_bind (h.call _) fun _ =>
        keeps_bind (hset _) fun _ => keeps_pure _
    · exact keeps_bind (hset _) fun _ => keeps_fail

theorem acceptSecrets (h : Steady R Y I) : Keeps (under R Y) I Link.acceptSecrets := by
  have own : Keeps (under R Y) I Link.ownSecret := by
    refine keeps_bind keeps_get fun l => ?_
    cases l.realm.contactSecret with
    | some secret => exact keeps_bind (keeps_turn h.stable _) fun _ => keeps_pure _
    | none => exact h.keySecret
  refine keeps_bind keeps_get fun l => ?_
  cases l.spec.acceptSecrets with
  | own secrets => exact keeps_bind (keeps_turn h.stable _) fun _ => keeps_pure _
  | node => exact keeps_bind own fun _ => keeps_bind keeps_get fun _ => keeps_pure _

theorem tryProbe (h : Steady R Y I) (ctx tag : Bytes) (secrets : List Bytes) :
    Keeps (under R Y) I (Link.tryProbe ctx tag secrets) := by
  induction secrets with
  | nil => exact keeps_pure _
  | cons secret secrets ih =>
    refine keeps_bind (h.quiet fun l => ⟨rfl, List.prefix_refl _⟩) fun _ =>
      keeps_bind (h.kdf _ _ _) fun key => keeps_bind (h.aeadDec _ _ _) fun r => ?_
    exact keeps_ite (keeps_pure _) ih

/-- Sealing and signing work on what they are given; a refused signature ends the link. -/
theorem signTranscript (h : Steady R Y I)
    (hends : ∀ l, I l → I (l.abort false)) (th : Bytes) :
    Keeps (under R Y) I (Link.signTranscript th) := by
  refine keeps_attempt ?_ ?_
  · exact keeps_bind keeps_get fun _ => keeps_bind (keeps_need _) fun _ =>
      keeps_bind (h.call _) fun _ => keeps_pure _
  · exact keeps_bind (keeps_modify hends) fun _ => keeps_pure _

theorem openIdentity (h : Steady R Y I) (key ct th : Bytes) :
    Keeps (under R Y) I (Link.openIdentity key ct th) := by
  refine keeps_bind (h.aeadDec _ _ _) fun r => ?_
  cases r with
  | none => exact keeps_pure _
  | some plain =>
    exact keeps_bind keeps_get fun l => keeps_bind (keeps_need _) fun root =>
      keeps_bind (h.verify _ _ _) fun good => keeps_ite (keeps_pure _)
        (keeps_ite (keeps_pure _) (keeps_pure _))

end Steady

end Link

end SeedTransport
