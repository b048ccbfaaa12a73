import SeedTransport.Services.Inbound

set_option autoImplicit false

namespace SeedTransport

namespace Inbound

/-! ### What the stack holds for one link -/

def Op.link : Op → Option Nat
  | .resuming k | .pausing k | .halting k _ | .calling k _ | .shutting k | .closing k
  | .idle k _ | .idleFailed k _ | .dropHeld k _ _ | .dropLink k => some k
  | .drain => none

/-- A read of the link is in the driver's hands: it counts as in flight. -/
def Op.busy : Op → Bool
  | .halting _ _ | .calling _ _ | .idle _ _ | .idleFailed _ _ => true
  | _ => false

/-- The link leaves the table before this is through. -/
def Op.dooms : Op → Bool
  | .idleFailed _ _ | .shutting _ | .dropLink _ => true
  | .dropHeld _ _ after => decide (after ≠ .nothing)
  | _ => false

/-- The read about to be handed over. -/
def Op.pending : Op → Option Bytes
  | .halting _ bytes => some bytes
  | _ => none

def Doomed (ops : List Op) : Prop := ∃ op ∈ ops, op.dooms = true

namespace TransportHost

def ops (h : TransportHost) (k : Nat) : List Op := h.stack.filter fun op => op.link = some k

/-- No occupant is called, or the driver is closing all it has. -/
def Absent (h : TransportHost) : Prop := h.bound = false ∨ h.ending ≠ none

end TransportHost

/-- A read reached the occupant from a link in its table that was not paused, with no other
read of the link in the realm. -/
def Handing.Fair (x : Handing) : Prop := x.live = true ∧ x.paused = false ∧ x.alone = true

instance (x : Handing) : Decidable x.Fair := inferInstanceAs (Decidable (_ ∧ _ ∧ _))

/-- What holds of a link between any two moves, as far as it does not concern the budget: until
it is being closed it holds no read for nothing and is read or parked, and where the adapters
have been `civil` its reads went over in order and singly, and none was lost. -/
structure Tended (civil : Prop) (s : Side) (live : Prop) (ops : List Op) (absent waits : Prop) : Prop where
  busy : ops.countP Op.busy + (if s.inRealm then 1 else 0) = if 0 ≤ s.activeBytes then 1 else 0
  unpaused : ∀ k bytes, Op.halting k bytes ∈ ops → s.paused = false
  ordered : civil → (s.handed.map (·.bytes) ++ ops.filterMap Op.pending ++ s.held).Sublist s.arrived
  whole : civil → live → ¬ Doomed ops →
    s.arrived = s.handed.map (·.bytes) ++ ops.filterMap Op.pending ++ s.held
  doomed : absent → live → Doomed ops
  lost : ∀ k freed, Op.dropHeld k freed .nothing ∈ ops → ¬ live
  waiting : live → ¬ Doomed ops → s.held ≠ [] → 0 ≤ s.activeBytes ∨ s.paused = true
  reading : live → ¬ Doomed ops → s.pausable = true → s.paused = false → s.activeBytes < 0 →
    s.told ≠ some false ∨ waits
  fair : civil → ∀ x ∈ s.handed, x.Fair

/-- A link whose last read is done with, and which carries the next ones in `carried`. -/
structure Between (civil : Prop) (s : Side) (live : Prop) (ops : List Op) (absent : Prop)
    (carried : List Bytes) : Prop where
  idle : ops.countP Op.busy = 0
  answered : s.inRealm = false
  ordered : civil → (s.handed.map (·.bytes) ++ carried ++ s.held).Sublist s.arrived
  whole : civil → live → ¬ Doomed ops → s.arrived = s.handed.map (·.bytes) ++ carried ++ s.held
  doomed : absent → live → Doomed ops
  lost : ∀ k freed, Op.dropHeld k freed .nothing ∈ ops → ¬ live
  fair : civil → ∀ x ∈ s.handed, x.Fair

@[simp] theorem doomed_cons {op : Op} {ops : List Op} :
    Doomed (op :: ops) ↔ op.dooms = true ∨ Doomed ops := by
  simp [Doomed]

theorem pending_nil {ops : List Op} (hb : ops.countP Op.busy = 0) :
    ops.filterMap Op.pending = [] := by
  rw [List.countP_eq_zero] at hb
  rw [List.filterMap_eq_nil_iff]
  intro op hop
  have := hb op hop
  cases op <;> simp [Op.busy, Op.pending] at this ⊢

theorem no_halting {ops : List Op} (hb : ops.countP Op.busy = 0) (k : Nat) (bytes : Bytes) :
    Op.halting k bytes ∉ ops := by
  rw [List.countP_eq_zero] at hb
  intro hm
  exact hb _ hm rfl

theorem not_doomed_cons {op : Op} {ops : List Op} (hd : ¬ Doomed (op :: ops)) : ¬ Doomed ops :=
  fun hd' => hd (doomed_cons.2 (.inr hd'))

/-- The read in `carried` gets an op of its own. -/
theorem Between.start {civil : Prop} {s : Side} {live : Prop} {ops : List Op} {absent waits : Prop}
    {carried : List Bytes} (b : Between civil s live ops absent carried) {op : Op}
    (hb : op.busy = true) (hc : op.pending.toList = carried) (ha : 0 ≤ s.activeBytes)
    (hp : op.pending ≠ none → s.paused = false) : Tended civil s live (op :: ops) absent waits := by
  have hpend : (op :: ops).filterMap Op.pending = carried := by
    rw [← hc, List.filterMap_cons, pending_nil b.idle]
    cases op.pending <;> rfl
  exact {
    busy := by simp [hb, b.idle, b.answered, ha]
    unpaused := fun j bytes hm => by
      rcases List.mem_cons.1 hm with he | hm
      · exact hp (by simp [← he, Op.pending])
      · exact absurd hm (no_halting b.idle j bytes)
    ordered := by
      rw [hpend]
      exact b.ordered
    whole := fun hc hl hd => by
      rw [hpend]
      exact b.whole hc hl (not_doomed_cons hd)
    doomed := fun hab hl => doomed_cons.2 (.inr (b.doomed hab hl))
    lost := fun j freed hm => by
      rcases List.mem_cons.1 hm with he | hm
      · rw [← he] at hb
        cases hb
      · exact b.lost j freed hm
    waiting := fun _ _ _ => .inl ha
    reading := fun _ _ _ _ hneg => by omega
    fair := b.fair }

/-- An op that is no read's goes on the stack. -/
theorem Tended.under {civil : Prop} {s : Side} {live : Prop} {ops : List Op} {absent waits : Prop}
    (t : Tended civil s live ops absent waits) {op : Op} (hb : op.busy = false)
    (hc : op.pending = none) (hl : ∀ k freed, op = .dropHeld k freed .nothing → ¬ live) :
    Tended civil s live (op :: ops) absent waits where
  busy := by simpa [List.countP_cons, hb] using t.busy
  unpaused := fun j bytes hm => by
    rcases List.mem_cons.1 hm with he | hm
    · rw [← he] at hc
      cases hc
    · exact t.unpaused j bytes hm
  ordered := by simpa [List.filterMap_cons, hc] using t.ordered
  whole := fun hv hl hd => by
    simpa [List.filterMap_cons, hc] using t.whole hv hl (not_doomed_cons hd)
  doomed := fun hab hl => doomed_cons.2 (.inr (t.doomed hab hl))
  lost := fun j freed hm => by
    rcases List.mem_cons.1 hm with he | hm
    · exact hl j freed he.symm
    · exact t.lost j freed hm
  waiting := fun hl hd => t.waiting hl (not_doomed_cons hd)
  reading := fun hl hd => t.reading hl (not_doomed_cons hd)
  fair := t.fair

section Tended

variable {civil : Prop} {s s' : Side} {live live' : Prop} {ops ops' : List Op}
  {absent absent' waits waits' : Prop}

/-- An op of a link that is being closed takes the place of what the stack held. -/
theorem Tended.doom (t : Tended civil s live ops absent waits) {op : Op} (hd : op.dooms = true)
    (hp : op.pending = none) (hops : ops'.Sublist ops)
    (hbusy : (op :: ops').countP Op.busy + (if s'.inRealm then 1 else 0) =
      if 0 ≤ s'.activeBytes then 1 else 0)
    (hpaused : s'.paused = s.paused) (hhanded : s'.handed = s.handed)
    (hheld : s'.held.Sublist s.held) (harrived : s.arrived.Sublist s'.arrived) :
    Tended civil s' live (op :: ops') absent waits' where
  busy := hbusy
  unpaused := fun j bytes hm => by
    rw [hpaused]
    rcases List.mem_cons.1 hm with he | hm
    · rw [← he] at hp
      cases hp
    · exact t.unpaused j bytes (hops.subset hm)
  ordered := fun hc => by
    rw [hhanded, List.filterMap_cons, hp]
    exact ((((hops.filterMap Op.pending).append_left _).append hheld).trans (t.ordered hc)).trans
      harrived
  whole := fun _ _ hn => absurd (doomed_cons.2 (.inl hd)) hn
  doomed := fun _ _ => doomed_cons.2 (.inl hd)
  lost := fun j freed hm => by
    rcases List.mem_cons.1 hm with he | hm
    · rw [← he] at hd
      simp [Op.dooms] at hd
    · exact t.lost j freed (hops.subset hm)
  waiting := fun _ hn => absurd (doomed_cons.2 (.inl hd)) hn
  reading := fun _ hn => absurd (doomed_cons.2 (.inl hd)) hn
  fair := hhanded ▸ t.fair

/-- On a link that left the table only the past matters. -/
theorem Tended.gone (t : Tended civil s live ops absent waits) (hl : ¬ live') (hops : ops'.Sublist ops)
    (hbusy : ops'.countP Op.busy + (if s'.inRealm then 1 else 0) =
      if 0 ≤ s'.activeBytes then 1 else 0)
    (hpaused : s'.paused = s.paused) (hhanded : s'.handed = s.handed)
    (hheld : s'.held.Sublist s.held) (harrived : s'.arrived = s.arrived) :
    Tended civil s' live' ops' absent' waits' where
  busy := hbusy
  unpaused := fun j bytes hm => by
    rw [hpaused]
    exact t.unpaused j bytes (hops.subset hm)
  ordered := fun hc => by
    rw [hhanded, harrived]
    exact (((hops.filterMap Op.pending).append_left _).append hheld).trans (t.ordered hc)
  whole := fun _ h => absurd h hl
  doomed := fun _ h => absurd h hl
  lost := fun _ _ _ => hl
  waiting := fun h => absurd h hl
  reading := fun h => absurd h hl
  fair := hhanded ▸ t.fair

/-- An op that is no read's and closes nothing comes off the stack. -/
theorem Tended.pop {op : Op} (t : Tended civil s live (op :: ops) absent waits) (hb : op.busy = false)
    (hd : op.dooms = false) (hp : op.pending = none) : Tended civil s live ops absent waits where
  busy := by simpa [List.countP_cons, hb] using t.busy
  unpaused := fun j bytes hm => t.unpaused j bytes (by simp [hm])
  ordered := by simpa [List.filterMap_cons, hp] using t.ordered
  whole := fun hc hl hn => by
    simpa [List.filterMap_cons, hp] using t.whole hc hl (by simpa [hd] using hn)
  doomed := fun hab hl => by simpa [hd] using t.doomed hab hl
  lost := fun j freed hm => t.lost j freed (by simp [hm])
  waiting := fun hl hn => t.waiting hl (by simpa [hd] using hn)
  reading := fun hl hn => t.reading hl (by simpa [hd] using hn)
  fair := t.fair

theorem Tended.swap {op op' : Op} (t : Tended civil s live (op :: ops) absent waits)
    (hb : op'.busy = op.busy) (hd : op'.dooms = op.dooms) (hp : op.pending = none)
    (hp' : op'.pending = none) (hl : ∀ k freed, op' = .dropHeld k freed .nothing → ¬ live) :
    Tended civil s live (op' :: ops) absent waits where
  busy := by simpa [List.countP_cons, hb] using t.busy
  unpaused := fun j bytes hm => by
    rcases List.mem_cons.1 hm with he | hm
    · rw [← he] at hp'
      cases hp'
    · exact t.unpaused j bytes (by simp [hm])
  ordered := by simpa [List.filterMap_cons, hp, hp'] using t.ordered
  whole := fun hc hl hn => by
    simpa [List.filterMap_cons, hp, hp'] using t.whole hc hl (by simpa [hd] using hn)
  doomed := fun hab hl => by simpa [hd] using t.doomed hab hl
  lost := fun j freed hm => by
    rcases List.mem_cons.1 hm with he | hm
    · exact hl j freed he.symm
    · exact t.lost j freed (by simp [hm])
  waiting := fun hl hn => t.waiting hl (by simpa [hd] using hn)
  reading := fun hl hn => t.reading hl (by simpa [hd] using hn)
  fair := t.fair

/-- A read's op is the only one there, and the realm has none. -/
theorem Tended.busy_only {op : Op} (t : Tended civil s live (op :: ops) absent waits)
    (hb : op.busy = true) :
    ops.countP Op.busy = 0 ∧ s.inRealm = false ∧ 0 ≤ s.activeBytes := by
  have hbusy := t.busy
  simp only [List.countP_cons, hb, if_true] at hbusy
  have ha : 0 ≤ s.activeBytes := by
    by_contra hn
    simp only [hn, if_false] at hbusy
    omega
  simp only [ha, if_true] at hbusy
  refine ⟨by omega, ?_, ha⟩
  cases hr : s.inRealm
  · rfl
  · simp only [hr, if_true] at hbusy
    omega

theorem Tended.busy_pop {op : Op} (t : Tended civil s live (op :: ops) absent waits)
    (hb : op.busy = true) (hd : op.dooms = false) :
    Between civil s live ops absent op.pending.toList ∧ 0 ≤ s.activeBytes := by
  obtain ⟨hidle, hno, ha⟩ := t.busy_only hb
  have hpend : (op :: ops).filterMap Op.pending = op.pending.toList := by
    rw [List.filterMap_cons, pending_nil hidle]
    cases op.pending <;> rfl
  refine ⟨⟨hidle, hno, ?_, ?_, ?_, ?_, t.fair⟩, ha⟩
  · rw [← hpend]
    exact t.ordered
  · intro hc hl hn
    rw [← hpend]
    exact t.whole hc hl (by simpa [hd] using hn)
  · intro hab hl
    simpa [hd] using t.doomed hab hl
  · exact fun j freed hm => t.lost j freed (by simp [hm])

end Tended

namespace TransportHost

variable {h : TransportHost} {civil : Prop} {k : Nat}

/-- What holds of the driver but for the reads of `k`. -/
structure Others (h : TransportHost) (civil : Prop) (k : Nat) : Prop where
  nodup : h.links.Nodup
  known : ∀ j ∈ h.links, j < h.nextLinkId
  shut : h.closed = true → h.bound = false
  binding : h.ending = some true → h.closed = false
  starved : h.starved ≠ [] → h.inboundSpent = true ∨ Op.drain ∈ h.stack
  others : ∀ j, j ≠ k → Tended civil (h.side j) (j ∈ h.links) (h.ops j) h.Absent (j ∈ h.starved)

def TendedAt (h : TransportHost) (civil : Prop) (k : Nat) : Prop :=
  Tended civil (h.side k) (k ∈ h.links) (h.ops k) h.Absent (k ∈ h.starved)

def BetweenAt (h : TransportHost) (civil : Prop) (k : Nat) (carried : List Bytes) : Prop :=
  Between civil (h.side k) (k ∈ h.links) (h.ops k) h.Absent carried

structure Kept (h : TransportHost) (civil : Prop) : Prop where
  nodup : h.links.Nodup
  known : ∀ j ∈ h.links, j < h.nextLinkId
  shut : h.closed = true → h.bound = false
  binding : h.ending = some true → h.closed = false
  starved : h.starved ≠ [] → h.inboundSpent = true ∨ Op.drain ∈ h.stack
  tended : ∀ j, h.TendedAt civil j

theorem Kept.but (q : h.Kept civil) (k : Nat) : h.Others civil k :=
  ⟨q.nodup, q.known, q.shut, q.binding, q.starved, fun j _ => q.tended j⟩

theorem Others.all (o : h.Others civil k) (t : h.TendedAt civil k) : h.Kept civil where
  nodup := o.nodup
  known := o.known
  shut := o.shut
  binding := o.binding
  starved := o.starved
  tended := fun j => by
    by_cases hj : j = k
    · subst hj
      exact t
    · exact o.others j hj

/-! ### What the small moves leave alone -/

section Frames

@[simp] theorem setSide_side (h : TransportHost) (k : Nat) (s : Side) :
    (h.setSide k s).side k = s := by simp [setSide]

theorem setSide_side_ne (h : TransportHost) {j : Nat} (s : Side) (hj : j ≠ k) :
    (h.setSide k s).side j = h.side j := by simp [setSide, hj]

@[simp] theorem setSide_links (h : TransportHost) (k : Nat) (s : Side) :
    (h.setSide k s).links = h.links := rfl

@[simp] theorem setSide_stack (h : TransportHost) (k : Nat) (s : Side) :
    (h.setSide k s).stack = h.stack := rfl

@[simp] theorem setSide_ops (h : TransportHost) (k j : Nat) (s : Side) :
    (h.setSide k s).ops j = h.ops j := rfl

@[simp] theorem setSide_absent (h : TransportHost) (k : Nat) (s : Side) :
    (h.setSide k s).Absent ↔ h.Absent := Iff.rfl

@[simp] theorem setSide_starved (h : TransportHost) (k : Nat) (s : Side) :
    (h.setSide k s).starved = h.starved := rfl

@[simp] theorem push_side (h : TransportHost) (os : List Op) : (h.push os).side = h.side := rfl

@[simp] theorem push_links (h : TransportHost) (os : List Op) : (h.push os).links = h.links := rfl

@[simp] theorem push_stack (h : TransportHost) (os : List Op) :
    (h.push os).stack = os ++ h.stack := rfl

@[simp] theorem push_absent (h : TransportHost) (os : List Op) :
    (h.push os).Absent ↔ h.Absent := Iff.rfl

@[simp] theorem push_starved (h : TransportHost) (os : List Op) :
    (h.push os).starved = h.starved := rfl

theorem push_ops (h : TransportHost) (os : List Op) (j : Nat) :
    (h.push os).ops j = (os.filter fun op => op.link = some j) ++ h.ops j := by
  simp [ops, push]

theorem release_ops (h : TransportHost) (length j : Nat) (after : Op) :
    (h.releaseInboundRead length after).ops j =
      (([after] : List Op).filter fun op => op.link = some j) ++ h.ops j := by
  simp only [ops, releaseInboundRead, List.filter_cons, List.filter_nil]
  have hd : ¬ Op.drain.link = some j := by simp [Op.link]
  by_cases ha : after.link = some j <;> simp [hd, ha]

theorem ops_pop {op : Op} {rest : List Op} (hs : h.stack = op :: rest) (j : Nat) :
    h.ops j = (([op] : List Op).filter fun op => op.link = some j) ++
      ({ h with stack := rest } : TransportHost).ops j := by
  simp only [ops, hs, List.filter_cons, List.filter_nil]
  split <;> simp

end Frames

section Moves

theorem Others.setSide (o : h.Others civil k) (s : Side) : (h.setSide k s).Others civil k where
  nodup := o.nodup
  known := o.known
  shut := o.shut
  binding := o.binding
  starved := o.starved
  others := fun j hj => by
    rw [setSide_side_ne h s hj]
    exact o.others j hj

theorem Others.push (o : h.Others civil k) {os : List Op} (hos : ∀ op ∈ os, op.link = some k) :
    (h.push os).Others civil k where
  nodup := o.nodup
  known := o.known
  shut := o.shut
  binding := o.binding
  starved := fun hs => (o.starved hs).imp id fun hd => by simp [hd]
  others := fun j hj => by
    have hops : (h.push os).ops j = h.ops j := by
      have hnone : (os.filter fun op => op.link = some j) = [] := by
        apply List.filter_eq_nil_iff.2
        intro op hop
        simp only [hos op hop, Option.some.injEq, decide_eq_true_eq]
        exact fun e => hj e.symm
      rw [push_ops, hnone, List.nil_append]
    rw [hops]
    exact o.others j hj

theorem Others.pop (o : h.Others civil k) {op : Op} {rest : List Op} (hs : h.stack = op :: rest)
    (hop : op.link = some k) : ({ h with stack := rest } : TransportHost).Others civil k where
  nodup := o.nodup
  known := o.known
  shut := o.shut
  binding := o.binding
  starved := fun hst => by
    rcases o.starved hst with hsp | hd
    · exact .inl hsp
    · rw [hs] at hd
      rcases List.mem_cons.1 hd with he | hd
      · rw [← he] at hop
        simp [Op.link] at hop
      · exact .inr hd
  others := fun j hj => by
    have hops : ({ h with stack := rest } : TransportHost).ops j = h.ops j := by
      rw [ops_pop hs j]
      have hne : ¬ k = j := fun e => hj e.symm
      simp [hop, hne]
    rw [hops]
    exact o.others j hj

theorem Others.release (o : h.Others civil k) (length : Nat) {after : Op} (ha : after.link = some k) :
    (h.releaseInboundRead length after).Others civil k where
  nodup := o.nodup
  known := o.known
  shut := o.shut
  binding := o.binding
  starved := fun _ => .inr (by simp [releaseInboundRead])
  others := fun j hj => by
    have hne : ¬ k = j := fun e => hj e.symm
    have hops : (h.releaseInboundRead length after).ops j = h.ops j := by
      rw [release_ops]
      simp [ha, hne]
    rw [hops]
    exact o.others j hj

theorem Others.channelClosed (o : h.Others civil k) : (h.channelClosed k).Others civil k where
  nodup := o.nodup.erase k
  known := fun j hj => o.known j (List.mem_of_mem_erase hj)
  shut := o.shut
  binding := o.binding
  starved := o.starved
  others := fun j hj => by
    have hl : (j ∈ (h.channelClosed k).links) = (j ∈ h.links) := by
      simp [TransportHost.channelClosed, List.Nodup.mem_erase_iff o.nodup, hj]
    rw [hl]
    exact o.others j hj

end Moves

/-! ### From one read to the next -/

section Next

theorem release_ops_self (h : TransportHost) (length : Nat) {after : Op}
    (ha : after.link = some k) : (h.releaseInboundRead length after).ops k = after :: h.ops k := by
  rw [release_ops]
  simp [ha]

theorem push_ops_self (h : TransportHost) {op : Op} (hop : op.link = some k) :
    (h.push [op]).ops k = op :: h.ops k := by
  rw [push_ops]
  simp [hop]

theorem ops_pop_self {op : Op} {rest : List Op} (hs : h.stack = op :: rest)
    (hop : op.link = some k) :
    h.ops k = op :: ({ h with stack := rest } : TransportHost).ops k := by
  rw [ops_pop hs k]
  simp [hop]

theorem finished_kept (o : h.Others civil k) (b : h.BetweenAt civil k [])
    (ha : 0 ≤ (h.side k).activeBytes) : (h.finished k).Kept civil := by
  refine (o.release _ rfl).all ?_
  unfold TendedAt
  rw [release_ops_self h _ rfl]
  exact b.start rfl rfl ha fun hp => absurd rfl hp

/-- A read is handed over from a link that is not paused, and is in the table if the adapters
are civil. -/
theorem handOver_kept {bytes : Bytes} (o : h.Others civil k) (b : h.BetweenAt civil k [bytes])
    (ha : 0 ≤ (h.side k).activeBytes) (hp : (h.side k).paused = false)
    (hl : civil → k ∈ h.links) : (h.handOver k bytes).Kept civil := by
  unfold handOver
  split
  · rename_i hno
    -- with nobody to call, the driver is closing all its links
    have hab : h.Absent := by
      rcases hno with hc | hb
      · exact .inl (o.shut hc)
      · exact .inl hb
    refine finished_kept o
      { b with ordered := fun hc => ?_, whole := fun _ hl hd => absurd (b.doomed hab hl) hd } ha
    refine List.Sublist.trans ?_ (b.ordered hc)
    simp
  · refine (o.setSide _).push (by simp [Op.link]) |>.all ?_
    unfold TendedAt
    rw [push_ops_self _ rfl]
    simp only [push_side, setSide_side, push_links, setSide_links, setSide_ops]
    have b' : Between civil
        { h.side k with
          handed := (h.side k).handed ++
            [⟨bytes, decide (k ∈ h.links), (h.side k).paused, !(h.side k).inRealm⟩] }
        (k ∈ h.links) (h.ops k) h.Absent [] :=
      { b with
        ordered := fun hc => by simpa using b.ordered hc
        whole := fun hc hl hd => by simpa using b.whole hc hl hd
        fair := fun hc x hx => by
          rcases List.mem_append.1 hx with hx | hx
          · exact b.fair hc x hx
          · rw [List.mem_singleton.1 hx]
            simp [Handing.Fair, hl hc, hp, b.answered] }
    exact b'.start rfl rfl ha fun hp => absurd rfl hp

theorem dispatchRead_kept {bytes : Bytes} (o : h.Others civil k)
    (b : h.BetweenAt civil k [bytes]) (hp : (h.side k).paused = false) (hl : k ∈ h.links) :
    (h.dispatchRead k bytes).Kept civil := by
  unfold dispatchRead
  simp only
  split
  · refine (o.setSide _).push (by simp [Op.link]) |>.all ?_
    unfold TendedAt
    rw [push_ops_self _ rfl]
    simp only [push_side, setSide_side, push_links, setSide_links, setSide_ops]
    have b' : Between civil { h.side k with activeBytes := bytes.length, told := some false }
        (k ∈ h.links) (h.ops k) h.Absent [bytes] := { b with }
    exact b'.start rfl rfl (Int.natCast_nonneg _) fun _ => hp
  · refine handOver_kept (o.setSide _) ?_ (by simp) (by simpa using hp) fun _ => by simpa using hl
    unfold BetweenAt
    simp only [setSide_side, setSide_links, setSide_ops]
    exact { b with }

theorem resume_kept (o : h.Others civil k)
    (t : Tended civil (h.side k) (k ∈ h.links) (h.ops k) h.Absent True) : (h.resume k).Kept civil := by
  unfold resume
  split
  · rename_i hno
    refine o.all { t with reading := fun hl _ hpa hp _ => ?_ }
    rcases hno with h1 | h1 | h1
    · rw [hp] at h1
      cases h1
    · exact absurd hl h1
    · rw [hpa] at h1
      cases h1
  · refine (o.setSide _).push (by simp [Op.link]) |>.all ?_
    unfold TendedAt
    rw [push_ops_self _ rfl]
    simp only [push_side, setSide_side, push_links, setSide_links, setSide_ops]
    have t' : Tended civil { h.side k with told := some true } (k ∈ h.links) (h.ops k) h.Absent
        (k ∈ h.starved) := { t with reading := fun _ _ _ _ _ => .inl (by simp) }
    exact t'.under rfl rfl (by simp)

/-- With no read in flight the driver hands over the oldest it holds, or reads on. -/
theorem readNext_kept (o : h.Others civil k) (b : h.BetweenAt civil k [])
    (ha : (h.side k).activeBytes < 0) : (h.readNext k).Kept civil := by
  have hneg : ¬ 0 ≤ (h.side k).activeBytes := by omega
  have t : (h.side k).held = [] ∨ (h.side k).paused = true ∨ k ∉ h.links →
      Tended civil (h.side k) (k ∈ h.links) (h.ops k) h.Absent True := by
    intro hw
    exact {
      busy := by simp [b.idle, b.answered, hneg]
      unpaused := fun j bytes hm => absurd hm (no_halting b.idle j bytes)
      ordered := fun hc => by simpa [pending_nil b.idle] using b.ordered hc
      whole := fun hc hl hd => by simpa [pending_nil b.idle] using b.whole hc hl hd
      doomed := b.doomed
      lost := b.lost
      waiting := fun hl _ hne => by
        rcases hw with h1 | h1 | h1
        · exact absurd h1 hne
        · exact .inr h1
        · exact absurd hl h1
      reading := fun _ _ _ _ _ => .inr trivial
      fair := b.fair }
  unfold readNext
  split
  · rename_i hgone
    refine (o.push (by simp [Op.link])).all ?_
    unfold TendedAt
    rw [push_ops_self _ rfl]
    have t' : Tended civil (h.side k) (k ∈ h.links) (h.ops k) h.Absent (k ∈ h.starved) :=
      { t (.inr (.inr hgone)) with reading := fun hl => absurd hl hgone }
    exact t'.under rfl rfl fun _ _ _ => hgone
  · rename_i hin
    rw [not_not] at hin
    split
    · rename_i hp
      exact o.all { t (.inr (.inl hp)) with
        reading := fun _ _ _ hp' => by
          rw [hp] at hp'
          cases hp' }
    · rename_i hp
      split
      · rename_i bytes rest hheld
        refine dispatchRead_kept (o.setSide _) ?_ (by simpa using hp) (by simpa using hin)
        unfold BetweenAt
        simp only [setSide_side, setSide_links, setSide_ops]
        exact { b with
          ordered := fun hc => by
            have := b.ordered hc
            rw [hheld] at this
            simpa using this
          whole := fun hc hl hd => by
            have := b.whole hc hl hd
            rw [hheld] at this
            simpa using this }
      · rename_i hheld
        split
        · rename_i hpark
          simp only [Bool.and_eq_true] at hpark
          refine Others.all (k := k) ⟨o.nodup, o.known, o.shut, o.binding, fun _ => .inl hpark.2, ?_⟩ ?_
          · intro j hj
            exact { o.others j hj with
              reading := fun hl hd hpa hp' hn =>
                ((o.others j hj).reading hl hd hpa hp' hn).imp id fun hw => by simp [hw] }
          · exact { t (.inl hheld) with reading := fun _ _ _ _ _ => .inr (by simp) }
        · exact resume_kept o (t (.inl hheld))

end Next

/-! ### Steps -/

section Steps

theorem failReadSide_kept (q : h.Kept civil) (k : Nat) : (h.failReadSide k).Kept civil := by
  refine ((q.but k).push (by simp [Op.link])).all ?_
  unfold TendedAt
  rw [push_ops_self _ rfl]
  exact (q.tended k).under rfl rfl (by simp)

/-- An op of one link comes off the stack; what its link then needs is in `t`. -/
theorem Kept.pop (q : h.Kept civil) {op : Op} {rest : List Op} (hs : h.stack = op :: rest)
    (hop : op.link = some k) :
    ({ h with stack := rest } : TransportHost).Others civil k ∧
      Tended civil (h.side k) (k ∈ h.links) (op :: ({ h with stack := rest } : TransportHost).ops k)
        h.Absent (k ∈ h.starved) := by
  refine ⟨(q.but k).pop hs hop, ?_⟩
  rw [← ops_pop_self hs hop]
  exact q.tended k

theorem drain_kept (q : h.Kept civil) {rest : List Op} (hs : h.stack = .drain :: rest) :
    h.go.Kept civil := by
  have hops : ∀ j, ({ h with stack := rest } : TransportHost).ops j = h.ops j := by
    intro j
    rw [ops_pop hs j]
    simp [Op.link]
  have hpop : (h.starved ≠ [] → h.inboundSpent = true) →
      ({ h with stack := rest } : TransportHost).Kept civil := by
    intro hst
    exact {
      nodup := q.nodup
      known := q.known
      shut := q.shut
      binding := q.binding
      starved := fun hne => .inl (hst hne)
      tended := fun j => by
        unfold TendedAt
        rw [hops j]
        exact q.tended j }
  simp only [go, hs]
  split
  · rename_i he
    exact hpop fun hne => absurd he hne
  · rename_i k starved he
    split
    · rename_i hsp
      exact hpop fun _ => hsp
    · -- the link at the front is read again, if it can be
      rw [← hs]
      refine resume_kept ?_ ?_
      · exact {
          nodup := q.nodup
          known := q.known
          shut := q.shut
          binding := q.binding
          starved := fun _ => .inr (by simp [hs])
          others := fun j hj => { q.tended j with
            reading := fun hl hd hpa hp hn =>
              ((q.tended j).reading hl hd hpa hp hn).imp id fun hw => by
                rw [he] at hw
                exact (List.mem_cons.1 hw).resolve_left hj } }
      · exact { q.tended k with reading := fun _ _ _ _ _ => .inr trivial }

theorem idle_kept (q : h.Kept civil) {length : Nat} {rest : List Op}
    (hs : h.stack = .idle k length :: rest) : h.go.Kept civil := by
  obtain ⟨o, t⟩ := q.pop hs rfl
  obtain ⟨b, -⟩ := t.busy_pop rfl rfl
  simp only [go, hs]
  refine readNext_kept (o.setSide _) ?_ (by simp)
  unfold BetweenAt
  simp only [setSide_side, setSide_links, setSide_ops]
  exact { b with }

theorem idleFailed_kept (q : h.Kept civil) {length : Nat} {rest : List Op}
    (hs : h.stack = .idleFailed k length :: rest) : h.go.Kept civil := by
  obtain ⟨o, t⟩ := q.pop hs rfl
  obtain ⟨hidle, hno, -⟩ := t.busy_only rfl
  simp only [go, hs]
  refine ((o.setSide _).push (by simp [Op.link])).all ?_
  unfold TendedAt
  rw [push_ops_self _ rfl]
  simp only [push_side, setSide_side, push_links, setSide_links, setSide_ops]
  refine t.doom rfl rfl (List.sublist_cons_self _ _) ?_ rfl rfl (List.Sublist.refl _)
    (List.Sublist.refl _)
  simp [Op.busy, hidle, hno]

theorem dropHeld_kept (q : h.Kept civil) {freed : List Nat} {after : Then} {rest : List Op}
    (hs : h.stack = .dropHeld k freed after :: rest) : h.go.Kept civil := by
  obtain ⟨o, t⟩ := q.pop hs rfl
  have hbusy := t.busy
  simp only [List.countP_cons, Op.busy, Bool.false_eq_true, if_false, Nat.add_zero] at hbusy
  simp only [go, hs]
  split
  · refine (o.release _ rfl).all ?_
    unfold TendedAt
    rw [release_ops_self _ _ rfl]
    refine t.swap rfl rfl rfl rfl ?_
    intro j f he
    simp only [Op.dropHeld.injEq] at he
    refine t.lost k freed ?_
    simp [he.2.2]
  · cases after with
    | nothing =>
      refine (o.setSide _).all ?_
      unfold TendedAt
      simp only [setSide_side, setSide_links, setSide_ops]
      exact t.gone (t.lost k freed (by simp)) (List.sublist_cons_self _ _) hbusy rfl rfl
        (List.nil_sublist _) rfl
    | channelClosed =>
      have o' := (o.setSide { h.side k with held := [] }).channelClosed
      refine o'.all ?_
      unfold TendedAt
      have hout : k ∉ h.links.erase k := q.nodup.not_mem_erase
      have hside : (({ h with stack := rest }.setSide k
          { h.side k with held := [] }).channelClosed k).side k =
            { h.side k with held := [] } := setSide_side _ k _
      rw [hside]
      exact t.gone hout (List.sublist_cons_self _ _) hbusy rfl rfl (List.nil_sublist _) rfl
    | dropLink =>
      refine ((o.setSide _).push (by simp [Op.link])).all ?_
      unfold TendedAt
      rw [push_ops_self _ rfl]
      simp only [push_side, setSide_side, push_links, setSide_links, setSide_ops]
      exact t.doom rfl rfl (List.sublist_cons_self _ _)
        (by simpa [List.countP_cons, Op.busy] using hbusy) rfl rfl (List.nil_sublist _)
        (List.Sublist.refl _)

theorem dropLink_kept (q : h.Kept civil) {rest : List Op} (hs : h.stack = .dropLink k :: rest) :
    h.go.Kept civil := by
  obtain ⟨o, t⟩ := q.pop hs rfl
  have o' : (({ h with stack := rest } : TransportHost).push [.shutting k]).Others civil k :=
    o.push (by simp [Op.link])
  have ho : ({ h with stack := rest } : TransportHost).push [.shutting k] =
      { h with stack := .shutting k :: rest } := rfl
  simp only [go, hs]
  rw [← ho]
  refine o'.all ?_
  unfold TendedAt
  rw [push_ops_self _ rfl]
  exact t.swap rfl rfl rfl rfl (by simp)

/-- With the stack empty a link is being closed by nothing. -/
theorem Kept.none_left (q : h.Kept civil) (hs : h.stack = []) (ha : h.Absent) (k : Nat) :
    k ∉ h.links := by
  intro hk
  obtain ⟨op, hop, -⟩ := (q.tended k).doomed ha hk
  simp [ops, hs] at hop

theorem ending_kept (q : h.Kept civil) (hs : h.stack = []) : h.go.Kept civil := by
  simp only [go, hs]
  split
  · exact q
  · rename_i bind he
    have hout := q.none_left hs (.inr (by simp [he]))
    exact {
      nodup := q.nodup
      known := q.known
      shut := fun hc => by
        have hb : bind = false := by
          cases bind
          · rfl
          · rw [q.binding he] at hc
            cases hc
        simp [hb, q.shut hc]
      binding := by simp
      starved := by simp
      tended := fun j => by
        have ht := q.tended j
        have hops : h.ops j = [] := by simp [ops, hs]
        unfold TendedAt at ht ⊢
        rw [hops] at ht
        exact ht.gone (hout j) (List.Sublist.refl _) ht.busy rfl rfl (List.Sublist.refl _) rfl }

theorem go_kept (q : h.Kept civil) : h.go.Kept civil := by
  cases hs : h.stack with
  | nil => exact ending_kept q hs
  | cons op rest =>
    cases op with
    | drain => exact drain_kept q hs
    | idle k length => exact idle_kept q hs
    | idleFailed k length => exact idleFailed_kept q hs
    | dropHeld k freed after => exact dropHeld_kept q hs
    | dropLink k => exact dropLink_kept q hs
    | _ =>
      simp only [go, hs]
      exact q

/-- What is asked of the adapters: one that is told to stop, for a read to be handed over,
does not close its link from there; and none brings a read to an idle link from inside the
drop of the reads that link holds. -/
def Civil (h : TransportHost) : Label → Prop
  | .back a =>
    match h.stack.head? with
    | some (.halting k _) => a = .threw ∨ k ∈ h.links
    | _ => True
  | .onData k _ => h.Outside → k ∈ h.links → (h.side k).activeBytes < 0 →
    (h.side k).paused = false → (h.side k).held = []
  | _ => True

/-- `Civil`, decided. -/
def isCivil (h : TransportHost) : Label → Bool
  | .back a =>
    match h.stack.head? with
    | some (.halting k _) => decide (a = .threw ∨ k ∈ h.links)
    | _ => true
  | .onData k _ => decide (h.Outside → k ∈ h.links → (h.side k).activeBytes < 0 →
      (h.side k).paused = false → (h.side k).held = [])
  | _ => true

theorem isCivil_iff (h : TransportHost) (l : Label) : h.isCivil l = true ↔ h.Civil l := by
  unfold isCivil Civil
  split
  · split <;> simp
  · exact decide_eq_true_iff
  · simp

instance (h : TransportHost) (l : Label) : Decidable (h.Civil l) := decidable_of_iff _ (isCivil_iff h l)

theorem setting_back_kept (q : h.Kept civil) {op : Op} {rest : List Op} (hs : h.stack = op :: rest)
    (hop : op.link = some k) (hb : op.busy = false) (hd : op.dooms = false)
    (hp : op.pending = none) : ({ h with stack := rest } : TransportHost).Kept civil := by
  obtain ⟨o, t⟩ := q.pop hs hop
  exact o.all (t.pop hb hd hp)

theorem back_kept (q : h.Kept civil) (a : Answer) (hc : civil → h.Civil (.back a)) :
    (h.back a).Kept civil := by
  cases hs : h.stack with
  | nil =>
    simp only [back, hs]
    exact q
  | cons op rest =>
    cases op with
    | resuming k =>
      have q' := setting_back_kept q hs rfl rfl rfl rfl
      simp only [back, hs]
      split
      · exact failReadSide_kept q' k
      · exact q'
    | pausing k =>
      have q' := setting_back_kept q hs rfl rfl rfl rfl
      simp only [back, hs]
      split
      · exact failReadSide_kept q' k
      · exact q'
    | halting k bytes =>
      obtain ⟨o, t⟩ := q.pop hs rfl
      obtain ⟨b, ha⟩ := t.busy_pop rfl rfl
      simp only [back, hs]
      split
      · refine (o.release _ rfl).all ?_
        unfold TendedAt
        rw [release_ops_self _ _ rfl]
        refine t.doom rfl rfl (List.sublist_cons_self _ _) ?_ rfl rfl (List.Sublist.refl _)
          (List.Sublist.refl _)
        have hno := b.answered
        simp [List.countP_cons, Op.busy, b.idle, releaseInboundRead, hno, ha]
      · rename_i hthrew
        have hin : civil → k ∈ h.links := by
          intro hv
          have := hc hv
          simp only [Civil, hs, List.head?_cons] at this
          exact this.resolve_left hthrew
        exact handOver_kept o b ha (t.unpaused k bytes (by simp)) hin
    | calling k bytes =>
      obtain ⟨o, t⟩ := q.pop hs rfl
      obtain ⟨b, ha⟩ : Between civil _ _ _ _ [] ∧ _ := t.busy_pop rfl rfl
      simp only [back, hs]
      split
      · refine (o.setSide _).all ?_
        unfold TendedAt
        simp only [setSide_side, setSide_links, setSide_ops]
        exact {
          busy := by simp [b.idle, ha]
          unpaused := fun j bytes hm => absurd hm (no_halting b.idle j bytes)
          ordered := fun hv => by simpa [pending_nil b.idle] using b.ordered hv
          whole := fun hv hl hd => by simpa [pending_nil b.idle] using b.whole hv hl hd
          doomed := b.doomed
          lost := b.lost
          waiting := fun _ _ _ => .inl ha
          reading := fun _ _ _ _ hneg => by
            simp only at hneg
            omega
          fair := b.fair }
      · exact finished_kept o b ha
    | shutting k =>
      obtain ⟨o, t⟩ := q.pop hs rfl
      simp only [back, hs]
      refine o.channelClosed.all ?_
      have hbusy := t.busy
      simp only [List.countP_cons, Op.busy, Bool.false_eq_true, if_false, Nat.add_zero] at hbusy
      exact t.gone q.nodup.not_mem_erase (List.sublist_cons_self _ _) hbusy rfl rfl
        (List.Sublist.refl _) rfl
    | closing k =>
      have q' := setting_back_kept q hs rfl rfl rfl rfl
      simp only [back, hs]
      exact ⟨q'.nodup, q'.known, q'.shut, q'.binding, q'.starved, q'.tended⟩
    | _ =>
      simp only [back, hs]
      exact q

theorem spent_mono {h' : TransportHost} (hs : h.inboundReadSlices ≤ h'.inboundReadSlices)
    (hb : h.inboundReadBytes ≤ h'.inboundReadBytes) (hsp : h.inboundSpent = true) :
    h'.inboundSpent = true := by
  simp only [inboundSpent, Bool.or_eq_true, decide_eq_true_eq] at hsp ⊢
  exact hsp.imp (fun hn => hn.trans hs) fun hn => hn.trans hb

theorem onData_kept (q : h.Kept civil) (k : Nat) (bytes : Bytes) (ho : h.Outside)
    (hc : civil → h.Civil (.onData k bytes)) : (h.onData k bytes).Kept civil := by
  have t := q.tended k
  unfold TendedAt at t
  have grow : ∀ l : List Bytes, l.Sublist (h.side k).arrived →
      (l ++ [bytes]).Sublist ((h.side k).arrived ++ [bytes]) :=
    fun l hl => hl.append (List.Sublist.refl _)
  -- a read that is refused takes the link with it
  have refused : ((h.setSide k
      { h.side k with arrived := (h.side k).arrived ++ [bytes] }).failReadSide k).Kept civil := by
    refine (((q.but k).setSide _).push (by simp [Op.link])).all ?_
    unfold TendedAt
    rw [push_ops_self _ rfl]
    simp only [push_side, setSide_side, push_links, setSide_links, setSide_ops]
    exact t.doom rfl rfl (List.Sublist.refl _)
      (by simpa [List.countP_cons, Op.busy] using t.busy) rfl rfl (List.Sublist.refl _)
      (List.sublist_append_left _ _)
  unfold onData
  split
  · exact q
  · rename_i hin
    rw [not_not] at hin
    simp only
    split
    · exact refused
    · split
      · exact refused
      · rename_i h' hres
        have hh' : h' = { h.setSide k { h.side k with arrived := (h.side k).arrived ++ [bytes] } with
            inboundReadSlices := h.inboundReadSlices + 1
            inboundReadBytes := h.inboundReadBytes + bytes.length } := by
          unfold reserveInboundRead at hres
          split at hres
          · cases hres
          · exact (Option.some.inj hres).symm
        have o' : h'.Others civil k := by
          have o := (q.but k).setSide { h.side k with arrived := (h.side k).arrived ++ [bytes] }
          subst hh'
          exact {
            nodup := o.nodup
            known := o.known
            shut := o.shut
            binding := o.binding
            starved := fun hne => (o.starved hne).imp (spent_mono (by simp [setSide]) (by simp [setSide])) id
            others := o.others }
        have hside : h'.side k = { h.side k with arrived := (h.side k).arrived ++ [bytes] } := by
          subst hh'
          exact setSide_side h k _
        have hlinks : h'.links = h.links := by
          subst hh'
          rfl
        have hops : h'.ops k = h.ops k := by
          subst hh'
          rfl
        have habs : h'.Absent ↔ h.Absent := by
          subst hh'
          exact Iff.rfl
        have hstarved : h'.starved = h.starved := by
          subst hh'
          rfl
        split
        · rename_i hidle
          rw [hside] at hidle
          simp only at hidle
          have hheld := fun hv => hc hv ho hin hidle.1 hidle.2
          have hneg : ¬ 0 ≤ (h.side k).activeBytes := by omega
          have hbusy := t.busy
          simp only [hneg, if_false] at hbusy
          have hzero : (h.ops k).countP Op.busy = 0 := by omega
          have hno : (h.side k).inRealm = false := by
            cases hr : (h.side k).inRealm
            · rfl
            · simp [hr] at hbusy
          refine dispatchRead_kept o' ?_ (by rw [hside]; exact hidle.2) (hlinks ▸ hin)
          unfold BetweenAt
          rw [hside, hlinks, hops, habs]
          exact {
            idle := hzero
            answered := hno
            ordered := fun hv => by
              have hord := t.ordered hv
              simp only [hheld hv, pending_nil hzero, List.append_nil] at hord
              simpa [hheld hv] using grow _ hord
            whole := fun hv hl hd => by
              have hw := t.whole hv hl hd
              simp only [hheld hv, pending_nil hzero, List.append_nil] at hw
              simp [hheld hv, hw]
            doomed := t.doomed
            lost := t.lost
            fair := t.fair }
        · rename_i hidle
          refine (o'.setSide _).all ?_
          unfold TendedAt
          simp only [setSide_side, setSide_links, setSide_ops, setSide_absent, setSide_starved]
          rw [hside] at hidle ⊢
          rw [hlinks, hops, habs, hstarved]
          simp only at hidle
          exact {
            busy := t.busy
            unpaused := t.unpaused
            ordered := fun hv => by simpa using grow _ (t.ordered hv)
            whole := fun hv hl hd => by simp [t.whole hv hl hd]
            doomed := t.doomed
            lost := t.lost
            waiting := fun _ _ _ => by
              by_cases hn : (h.side k).activeBytes < 0
              · right
                cases hp : (h.side k).paused
                · exact absurd ⟨hn, hp⟩ hidle
                · rfl
              · left
                simp only
                omega
            reading := t.reading
            fair := t.fair }

theorem onClose_kept (q : h.Kept civil) (k : Nat) : (h.onClose k).Kept civil := by
  unfold onClose
  split
  · refine ((q.but k).push (by simp [Op.link])).all ?_
    unfold TendedAt
    rw [push_ops_self _ rfl]
    exact (q.tended k).under rfl rfl (by simp)
  · exact q

/-- With nothing on the stack, a link's read is in the realm or there is none. -/
theorem Kept.at_rest (q : h.Kept civil) (hs : h.stack = []) (k : Nat) :
    h.ops k = [] ∧ ((h.side k).inRealm = true ↔ 0 ≤ (h.side k).activeBytes) := by
  have hops : h.ops k = [] := by simp [ops, hs]
  have hbusy := (q.tended k).busy
  rw [hops] at hbusy
  refine ⟨hops, ?_⟩
  cases hr : (h.side k).inRealm <;> by_cases ha : 0 ≤ (h.side k).activeBytes <;>
    simp [hr, ha] at hbusy ⊢

theorem not_doomed_nil : ¬ Doomed [] := by simp [Doomed]

/-- A link with no read in the realm, between two turns of the driver's. -/
theorem Kept.between (q : h.Kept civil) (hs : h.stack = []) (k : Nat) {s : Side}
    (hr : s.inRealm = false) (hh : s.handed = (h.side k).handed)
    (hheld : s.held = (h.side k).held) (ha : s.arrived = (h.side k).arrived) :
    Between civil s (k ∈ h.links) (h.ops k) h.Absent [] := by
  have hops := (q.at_rest hs k).1
  have t := q.tended k
  unfold TendedAt at t
  rw [hops] at t ⊢
  exact {
    idle := rfl
    answered := hr
    ordered := fun hv => by
      rw [hh, hheld, ha]
      exact t.ordered hv
    whole := fun hv hl hd => by
      rw [hh, hheld, ha]
      exact t.whole hv hl hd
    doomed := t.doomed
    lost := t.lost
    fair := hh ▸ t.fair }

theorem settle_kept (q : h.Kept civil) (hs : h.stack = []) (k : Nat)
    (hr : (h.side k).inRealm = true) :
    ((h.setSide k { h.side k with inRealm := false }).releaseRead k).Kept civil := by
  have ha := (q.at_rest hs k).2.1 hr
  unfold releaseRead
  simp only [setSide_side, ha, if_true]
  refine finished_kept ((q.but k).setSide _) ?_ (by simpa using ha)
  unfold BetweenAt
  simp only [setSide_side]
  exact q.between hs k rfl rfl rfl rfl

theorem pause_kept (q : h.Kept civil) (hs : h.stack = []) (k : Nat) (on : Bool) :
    (h.pause k on).Kept civil := by
  have hrest := q.at_rest hs k
  have t := q.tended k
  unfold TendedAt at t
  rw [hrest.1] at t
  unfold pause
  split
  · exact q
  · simp only
    split
    · -- a paused link waits
      have t' : ∀ told, Tended civil { h.side k with paused := true, told := told } (k ∈ h.links) []
          h.Absent (k ∈ h.starved) := fun told =>
        { t with
          unpaused := by simp
          waiting := fun _ _ _ => .inr rfl
          reading := fun _ _ _ hp => by cases hp }
      rename_i hon
      subst hon
      simp only [setSide_side]
      split
      · refine (((q.but k).setSide _).setSide _).push (by simp [Op.link]) |>.all ?_
        unfold TendedAt
        rw [push_ops_self _ rfl]
        simp only [push_side, setSide_side, push_links, setSide_links, setSide_ops, hrest.1]
        exact (t' (some false)).under rfl rfl (by simp)
      · refine ((q.but k).setSide _).all ?_
        unfold TendedAt
        simp only [setSide_side, setSide_links, setSide_ops, hrest.1]
        exact t' (h.side k).told
    · rename_i hon
      have hoff : on = false := by simpa using hon
      subst hoff
      simp only [setSide_side]
      split
      · rename_i hneg
        have hnn : ¬ 0 ≤ (h.side k).activeBytes := by omega
        unfold releaseRead
        simp only [setSide_side, hnn, if_false]
        refine readNext_kept ((q.but k).setSide _) ?_ (by simpa using hneg)
        unfold BetweenAt
        simp only [setSide_side]
        refine q.between hs k ?_ rfl rfl rfl
        cases hr : (h.side k).inRealm
        · rfl
        · exact absurd (hrest.2.1 hr) hnn
      · rename_i hpos
        have hnn : 0 ≤ (h.side k).activeBytes := by omega
        refine ((q.but k).setSide _).all ?_
        unfold TendedAt
        simp only [setSide_side, setSide_links, setSide_ops, hrest.1]
        exact { t with
          unpaused := by simp
          waiting := fun _ _ _ => .inl hnn
          reading := fun _ _ _ _ hneg => absurd hneg hpos }

theorem register_kept (q : h.Kept civil) (hs : h.stack = []) (hp : ¬ h.Absent) (pausable : Bool) :
    (h.register pausable).Kept civil := by
  unfold register
  split
  · exact q
  · have hnew : h.nextLinkId ∉ h.links := fun hm => by
      have := q.known _ hm
      omega
    exact {
      nodup := by
        rw [List.nodup_append]
        refine ⟨q.nodup, List.nodup_singleton _, ?_⟩
        intro a ha b hb
        rw [List.mem_singleton.1 hb]
        exact fun e => hnew (e ▸ ha)
      known := fun j hj => by
        rcases List.mem_append.1 hj with hj | hj
        · have := q.known j hj
          simp only
          omega
        · rw [List.mem_singleton.1 hj]
          simp
      shut := q.shut
      binding := q.binding
      starved := q.starved
      tended := fun j => by
        have hops : h.ops j = [] := (q.at_rest hs j).1
        have t := q.tended j
        unfold TendedAt at t ⊢
        by_cases hj : j = h.nextLinkId
        · subst hj
          have hside : (Function.update h.side h.nextLinkId (Side.new pausable)) h.nextLinkId =
              Side.new pausable := by simp
          simp only [hside]
          have hops' : ({ h with
              nextLinkId := h.nextLinkId + 1
              side := Function.update h.side h.nextLinkId (.new pausable)
              links := h.links ++ [h.nextLinkId] } : TransportHost).ops h.nextLinkId = [] := hops
          rw [hops']
          constructor <;> simp [Side.new, Doomed]
          exact hp
        · have hside : (Function.update h.side h.nextLinkId (Side.new pausable)) j = h.side j := by
            simp [hj]
          have hl : (j ∈ h.links ++ [h.nextLinkId]) = (j ∈ h.links) := by simp [hj]
          simp only [hside, hl]
          exact t }

/-- All links are dropped, one after another. -/
theorem reset_kept (q : h.Kept civil) (hs : h.stack = []) (bind : Bool)
    (hb : bind = true → h.closed = false) : (h.reset bind).Kept civil where
  nodup := q.nodup
  known := q.known
  shut := q.shut
  binding := fun he => hb (by simpa [reset] using he)
  starved := fun hne => by
    rcases q.starved hne with hsp | hd
    · exact .inl hsp
    · rw [hs] at hd
      cases hd
  tended := fun j => by
    have hops : h.ops j = [] := (q.at_rest hs j).1
    have hdrops : ∀ op ∈ (h.reset bind).ops j, op = .dropLink j := by
      intro op hop
      obtain ⟨hm, hlink⟩ := List.mem_filter.1 hop
      obtain ⟨i, -, rfl⟩ := List.mem_map.1 hm
      simpa [Op.link] using hlink
    have hidle : ((h.reset bind).ops j).countP Op.busy = 0 := by
      rw [List.countP_eq_zero]
      intro op hop
      rw [hdrops op hop]
      simp [Op.busy]
    have t := q.tended j
    unfold TendedAt at t ⊢
    rw [hops] at t
    have hdoomed : j ∈ h.links → Doomed ((h.reset bind).ops j) := fun hj =>
      ⟨.dropLink j, List.mem_filter.2 ⟨List.mem_map_of_mem hj, by simp [Op.link]⟩, rfl⟩
    exact {
      busy := by
        rw [hidle]
        exact t.busy
      unpaused := fun i bytes hm => absurd (hdrops _ hm) (by simp)
      ordered := by
        rw [pending_nil hidle]
        exact t.ordered
      whole := fun _ hl hn => absurd (hdoomed hl) hn
      doomed := fun _ hl => hdoomed hl
      lost := fun i freed hm => absurd (hdrops _ hm) (by simp)
      waiting := fun hl hn => absurd (hdoomed hl) hn
      reading := fun hl hn => absurd (hdoomed hl) hn
      fair := t.fair }

/-- Unbinding the occupant is safe while the links are about to be closed. -/
theorem release_kept (q : h.Kept civil) (hs : h.stack = []) (closed bind : Bool)
    (hc : h.closed = true → closed = true) (hb : bind = true → closed = false) :
    (({ h with bound := false, closed } : TransportHost).reset bind).Kept civil := by
  have q' := reset_kept q hs bind fun h1 => by
    cases hcl : h.closed
    · rfl
    · rw [hc hcl] at hb
      exact absurd (hb h1) (by simp)
  exact {
    nodup := q'.nodup
    known := q'.known
    shut := fun _ => rfl
    binding := fun he => hb (by simpa [reset] using he)
    starved := q'.starved
    tended := fun j => { q'.tended j with
      doomed := fun _ hl => (q'.tended j).doomed (.inr (by simp [reset])) hl } }

theorem step_kept (q : h.Kept civil) (l : Label) (hc : civil → h.Civil l) : (h.step l).Kept civil := by
  cases l with
  | go => exact go_kept q
  | back a => exact back_kept q a hc
  | onData k bytes =>
    simp only [step]
    split
    · rename_i ho
      exact onData_kept q k bytes ho hc
    · exact q
  | onClose k =>
    simp only [step]
    split
    · exact onClose_kept q k
    · exact q
  | register pausable =>
    simp only [step]
    split
    · rename_i hr
      refine register_kept q hr.1.1 ?_ pausable
      rintro (hb | he)
      · rw [hr.2] at hb
        cases hb
      · exact he hr.1.2
    · exact q
  | pause k on =>
    simp only [step]
    split
    · rename_i hr
      exact pause_kept q hr.1.1 k on
    · exact q
  | close k =>
    simp only [step]
    split
    · refine ((q.but k).push (by simp [Op.link])).all ?_
      unfold TendedAt
      rw [push_ops_self _ rfl]
      exact (q.tended k).under rfl rfl (by simp)
    · exact q
  | sendThrew k =>
    simp only [step]
    split
    · refine ((q.but k).push (by simp [Op.link])).all ?_
      unfold TendedAt
      rw [push_ops_self _ rfl]
      exact (q.tended k).under rfl rfl (by simp)
    · exact q
  | settle k =>
    simp only [step]
    split
    · rename_i hr
      exact settle_kept q hr.1.1 k hr.2
    · exact q
  | microtask =>
    simp only [step]
    split
    · exact q
    · rename_i k rest _
      split
      · refine (Others.channelClosed (k := k) (h := { h with later := rest })
          ⟨q.nodup, q.known, q.shut, q.binding, q.starved, fun j _ => q.tended j⟩).all ?_
        have t := q.tended k
        exact t.gone q.nodup.not_mem_erase (List.Sublist.refl _) t.busy rfl rfl
          (List.Sublist.refl _) rfl
      · exact q
  | activate =>
    simp only [step]
    split
    · rename_i hr
      unfold activate
      split
      · exact release_kept q hr.1.1 h.closed true id fun _ => hr.2
      · rename_i hb
        have hb' : h.bound = false := by simpa using hb
        exact {
          nodup := q.nodup
          known := q.known
          shut := fun hcl => by
            rw [hr.2] at hcl
            cases hcl
          binding := q.binding
          starved := q.starved
          tended := fun j => { q.tended j with
            doomed := fun _ hl => (q.tended j).doomed (.inl hb') hl } }
    · exact q
  | release =>
    simp only [step]
    split
    · rename_i hr
      unfold release
      split
      · exact release_kept q hr.1 h.closed false id (by simp)
      · exact q
    · exact q
  | reset =>
    simp only [step]
    split
    · rename_i hr
      exact reset_kept q hr.1 false (by simp)
    · exact q
  | shut =>
    simp only [step]
    split
    · rename_i hr
      unfold close
      split
      · exact q
      · exact release_kept q hr.1 true false (fun _ => rfl) (by simp)
    · exact q

end Steps

/-! ### Runs -/

theorem new_kept (civil : Prop) (maxRawLinks : Nat) : (new maxRawLinks).Kept civil where
  nodup := by simp [new]
  known := by simp [new]
  shut := by simp [new]
  binding := by simp [new]
  starved := by simp [new]
  tended := fun k => by
    unfold TendedAt
    constructor <;> simp [new, Side.new, ops]

def Civilly (h : TransportHost) : List Label → Prop
  | [] => True
  | l :: labels => h.Civil l ∧ (h.step l).Civilly labels

instance instDecidableCivilly (h : TransportHost) (labels : List Label) :
    Decidable (h.Civilly labels) :=
  match labels with
  | [] => isTrue trivial
  | l :: labels =>
    have := instDecidableCivilly (h.step l) labels
    inferInstanceAs (Decidable (h.Civil l ∧ (h.step l).Civilly labels))

theorem Kept.run (q : h.Kept civil) (labels : List Label) (hc : civil → h.Civilly labels) :
    (h.run labels).Kept civil := by
  induction labels generalizing h with
  | nil => exact q
  | cons l labels ih => exact ih (step_kept q l fun hv => (hc hv).1) fun hv => (hc hv).2

/-- How reads go over. What a link in the table was given, it has handed over in order or still
holds, and it holds reads only behind one in the realm or while it is paused. Otherwise it is
read: `setReadable` did not say `false` last (an adapter reads from the start), or it waits in
`starved`, which has links in it only while the budget is spent. -/
structure Delivered (h : TransportHost) : Prop where
  fair : ∀ k, ∀ x ∈ (h.side k).handed, x.Fair
  ordered : ∀ k, ((h.side k).handed.map (·.bytes)).Sublist (h.side k).arrived
  whole : h.Rest → ∀ k ∈ h.links,
    (h.side k).arrived = (h.side k).handed.map (·.bytes) ++ (h.side k).held
  waiting : h.Rest → ∀ k ∈ h.links, (h.side k).held ≠ [] →
    (h.side k).inRealm = true ∨ (h.side k).paused = true
  reading : h.Rest → ∀ k ∈ h.links, (h.side k).pausable = true → (h.side k).paused = false →
    (h.side k).inRealm = false → (h.side k).held = [] →
    (h.side k).told ≠ some false ∨ k ∈ h.starved
  starved : h.Rest → h.starved ≠ [] → h.inboundSpent = true

theorem Kept.delivered (q : h.Kept True) : h.Delivered := by
  have rest : h.Rest → ∀ k, Tended True (h.side k) (k ∈ h.links) [] h.Absent (k ∈ h.starved) := by
    intro hr k
    rw [← (q.at_rest hr.1 k).1]
    exact q.tended k
  constructor
  · exact fun k => (q.tended k).fair trivial
  · intro k
    refine List.Sublist.trans ?_ ((q.tended k).ordered trivial)
    rw [List.append_assoc]
    exact List.sublist_append_left _ _
  · intro hr k hk
    simpa using (rest hr k).whole trivial hk not_doomed_nil
  · intro hr k hk hne
    exact ((rest hr k).waiting hk not_doomed_nil hne).imp (q.at_rest hr.1 k).2.2 id
  · intro hr k hk hpa hp hno _
    refine (rest hr k).reading hk not_doomed_nil hpa hp ?_
    by_contra hneg
    have := (q.at_rest hr.1 k).2.2 (by omega)
    rw [hno] at this
    cases this
  · intro hr hne
    rcases q.starved hne with hsp | hd
    · exact hsp
    · rw [hr.1] at hd
      cases hd

/-- With adapters that keep to it, every run delivers. -/
theorem run_delivers (maxRawLinks : Nat) (labels : List Label)
    (hc : (new maxRawLinks).Civilly labels) : ((new maxRawLinks).run labels).Delivered :=
  ((new_kept True maxRawLinks).run labels fun _ => hc).delivered

/-- Two reads of a pausable link, the second behind the first and then held over a pause. -/
def pausedRun : List Label :=
  [.activate, .register true, .onData 1 [1], .back .returned, .back .returned, .onData 1 [2],
    .pause 1 true, .back .returned, .settle 1, .go, .go, .pause 1 false, .back .returned,
    .back .returned]

theorem pausedRun_delivers :
    ((new 4).run pausedRun).Delivered ∧
      (((new 4).run pausedRun).side 1).handed.map (·.bytes) = [[1], [2]] :=
  ⟨run_delivers 4 pausedRun (by decide), by decide⟩

/-- A pausable link whose adapter closes it when it is told to stop for a read. -/
def closingRun : List Label :=
  [.activate, .register true, .onData 1 [1], .onClose 1, .go, .back .returned]

/-- The read goes over after its link left the table. -/
theorem closingRun_undelivered : ¬ ((new 4).run closingRun).Delivered := by
  intro hd
  have hfair : ¬ ∀ x ∈ (((new 4).run closingRun).side 1).handed, x.Fair := by decide
  exact hfair (hd.fair 1)

end TransportHost

end Inbound

end SeedTransport
