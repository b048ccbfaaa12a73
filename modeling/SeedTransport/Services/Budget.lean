import SeedTransport.Services.Reads

set_option autoImplicit false

namespace SeedTransport

namespace Inbound

open Outbound (maxLinkReadBytes)

/-! ### What a link's reads weigh -/

/-- The two ceilings of the inbound budget. -/
inductive Measure where
  | slices
  | bytes
  deriving DecidableEq

def Measure.weight : Measure → Nat → Int
  | .slices, _ => 1
  | .bytes, length => length

def TransportHost.counter (h : TransportHost) : Measure → Int
  | .slices => h.inboundReadSlices
  | .bytes => h.inboundReadBytes

/-- The reads a link has in its variables. -/
def Side.charge (s : Side) (m : Measure) : Int :=
  (if 0 ≤ s.activeBytes then m.weight s.activeBytes.toNat else 0) +
    (s.held.map fun bytes => m.weight bytes.length).sum

/-- What an op has given back of reads that are still in the variables. -/
def Op.lag (m : Measure) : Op → Int
  | .idle _ length | .idleFailed _ length => m.weight length
  | .dropHeld _ freed _ => (freed.map m.weight).sum
  | _ => 0

def lagging (m : Measure) (ops : List Op) : Int := (ops.map (Op.lag m)).sum

/-- The op goes with something given back. -/
def Op.gives : Op → Bool
  | .idle _ _ | .idleFailed _ _ | .dropHeld _ _ _ => true
  | _ => false

def Op.drops : Op → Bool
  | .dropHeld _ _ _ => true
  | _ => false

/-- A link's share of the budget. -/
def TransportHost.account (h : TransportHost) (m : Measure) (k : Nat) : Int :=
  (h.side k).charge m - lagging m (h.ops k)

/-- What holds of a link's share: what was given back is there to be given, by one hand; the
read in flight is the last that was handed over; a link that is gone and has none in flight
holds nothing that is not being dropped. -/
structure Accounted (s : Side) (live : Prop) (ops : List Op) : Prop where
  idle : ∀ k n, Op.idle k n ∈ ops → s.activeBytes = n
  idleFailed : ∀ k n, Op.idleFailed k n ∈ ops → s.activeBytes = n
  dropped : ∀ k freed after, Op.dropHeld k freed after ∈ ops →
    freed <+: s.held.map List.length
  single : ops.countP Op.drops ≤ 1
  halting : ∀ k bytes, Op.halting k bytes ∈ ops → s.activeBytes = bytes.length
  calling : ∀ k bytes, Op.calling k bytes ∈ ops →
    s.activeBytes = bytes.length ∧ ∃ x, s.handed.getLast? = some x ∧ x.bytes = bytes
  flight : s.inRealm = true →
    ∃ x, s.handed.getLast? = some x ∧ s.activeBytes = x.bytes.length
  gone : ¬ live → s.held = [] ∨ 0 ≤ s.activeBytes ∨ 0 < ops.countP Op.drops

namespace TransportHost

variable {h h' h'' : TransportHost} {k : Nat} {c c' : Measure → Int}

structure Budget (h : TransportHost) : Prop where
  total : ∀ m, h.counter m = ((List.range h.nextLinkId).map (h.account m)).sum
  fresh : ∀ k, h.nextLinkId ≤ k → (h.side k).held = [] ∧ (h.side k).activeBytes < 0 ∧ h.ops k = []
  accounted : ∀ k, Accounted (h.side k) (k ∈ h.links) (h.ops k)

/-- From `h` to `h'` only link `k` moved, and the counters by `c` more than its share. -/
structure Moved (h h' : TransportHost) (k : Nat) (c : Measure → Int) : Prop where
  next : h'.nextLinkId = h.nextLinkId
  side : ∀ j, j ≠ k → h'.side j = h.side j
  ops : ∀ j, j ≠ k → h'.ops j = h.ops j
  links : ∀ j, j ≠ k → (j ∈ h'.links ↔ j ∈ h.links)
  paid : ∀ m, h'.counter m - h'.account m k = h.counter m - h.account m k + c m

theorem Moved.refl (h : TransportHost) (k : Nat) : Moved h h k fun _ => 0 :=
  ⟨rfl, fun _ _ => rfl, fun _ _ => rfl, fun _ _ => Iff.rfl, fun m => by simp⟩

theorem Moved.trans (a : Moved h h' k c) (b : Moved h' h'' k c') :
    Moved h h'' k fun m => c m + c' m where
  next := b.next.trans a.next
  side := fun j hj => (b.side j hj).trans (a.side j hj)
  ops := fun j hj => (b.ops j hj).trans (a.ops j hj)
  links := fun j hj => (b.links j hj).trans (a.links j hj)
  paid := fun m => by
    have := a.paid m
    have := b.paid m
    omega

theorem Moved.cast (a : Moved h h' k c) (hc : ∀ m, c m = c' m) : Moved h h' k c' :=
  { a with paid := fun m => by rw [a.paid m, hc m] }

/-- When the counters moved with the link's share, the budget balances. -/
theorem Budget.moved (b : h.Budget) (a : Moved h h' k fun _ => 0) (hlt : k < h.nextLinkId)
    (hk : Accounted (h'.side k) (k ∈ h'.links) (h'.ops k)) : h'.Budget where
  total := fun m => by
    have hpaid := a.paid m
    have htotal := b.total m
    have hin : k ∈ List.range h.nextLinkId := List.mem_range.2 hlt
    have hold := Outbound.TransportHost.sum_erase hin (h.account m)
    have hnew := Outbound.TransportHost.sum_erase hin (h'.account m)
    have hsame : ((List.range h.nextLinkId).erase k).map (h'.account m) =
        ((List.range h.nextLinkId).erase k).map (h.account m) := by
      apply List.map_congr_left
      intro j hj
      have hjk : j ≠ k := ((List.Nodup.mem_erase_iff List.nodup_range).1 hj).1
      simp only [account, a.side j hjk, a.ops j hjk]
    rw [hsame] at hnew
    rw [a.next]
    omega
  fresh := fun j hj => by
    rw [a.next] at hj
    have hjk : j ≠ k := by omega
    rw [a.side j hjk, a.ops j hjk]
    exact b.fresh j hj
  accounted := fun j => by
    by_cases hjk : j = k
    · subst hjk
      exact hk
    · have := b.accounted j
      rw [a.side j hjk, a.ops j hjk]
      exact { this with gone := fun hl => this.gone fun hl' => hl ((a.links j hjk).2 hl') }

theorem Budget.made (b : h.Budget) {op : Op} {rest : List Op} (hs : h.stack = op :: rest)
    (hop : op.link = some k) : k < h.nextLinkId := by
  by_contra hn
  have := (b.fresh k (by omega)).2.2
  rw [ops_pop_self hs hop] at this
  cases this

/-! ### The small moves -/

section Small

theorem setSide_moved (h : TransportHost) (k : Nat) (s : Side) :
    Moved h (h.setSide k s) k fun m => (h.side k).charge m - s.charge m where
  next := rfl
  side := fun _ hj => setSide_side_ne h s hj
  ops := fun _ _ => rfl
  links := fun _ _ => Iff.rfl
  paid := fun m => by
    have hc : (h.setSide k s).counter m = h.counter m := by cases m <;> rfl
    rw [hc]
    simp only [account, setSide_side, setSide_ops]
    omega

theorem push_moved (h : TransportHost) {op : Op} (hop : op.link = some k) :
    Moved h (h.push [op]) k fun m => op.lag m where
  next := rfl
  side := fun _ _ => rfl
  ops := fun j hj => by
    rw [push_ops]
    have hne : ¬ k = j := fun e => hj e.symm
    simp [hop, hne]
  links := fun _ _ => Iff.rfl
  paid := fun m => by
    have hc : (h.push [op]).counter m = h.counter m := by cases m <;> rfl
    rw [hc]
    simp only [account, push_side, push_ops_self h hop, lagging, List.map_cons, List.sum_cons]
    omega

theorem pop_moved {op : Op} {rest : List Op} (hs : h.stack = op :: rest)
    (hop : op.link = some k) :
    Moved h { h with stack := rest } k fun m => - op.lag m where
  next := rfl
  side := fun _ _ => rfl
  ops := fun j hj => by
    have hne : ¬ k = j := fun e => hj e.symm
    have := ops_pop hs j
    simpa [hop, hne] using this.symm
  links := fun _ _ => Iff.rfl
  paid := fun m => by
    have hc : ({ h with stack := rest } : TransportHost).counter m = h.counter m := by
      cases m <;> rfl
    rw [hc]
    simp only [account, ops_pop_self hs hop, lagging, List.map_cons, List.sum_cons]
    omega

theorem release_moved (h : TransportHost) (length : Nat) {after : Op}
    (ha : after.link = some k) :
    Moved h (h.releaseInboundRead length after) k fun m => after.lag m - m.weight length where
  next := rfl
  side := fun _ _ => rfl
  ops := fun j hj => by
    rw [release_ops]
    have hne : ¬ k = j := fun e => hj e.symm
    simp [ha, hne]
  links := fun _ _ => Iff.rfl
  paid := fun m => by
    have hc : (h.releaseInboundRead length after).counter m = h.counter m - m.weight length := by
      cases m <;> rfl
    have hs : (h.releaseInboundRead length after).side = h.side := rfl
    rw [hc]
    simp only [account, hs, release_ops_self h length ha, lagging, List.map_cons, List.sum_cons]
    omega

theorem channelClosed_moved (hn : h.links.Nodup) (k : Nat) :
    Moved h (h.channelClosed k) k fun _ => 0 where
  next := rfl
  side := fun _ _ => rfl
  ops := fun _ _ => rfl
  links := fun j hj => by simp [channelClosed, List.Nodup.mem_erase_iff hn, hj]
  paid := fun m => by
    have hc : (h.channelClosed k).counter m = h.counter m := by cases m <;> rfl
    have ha : (h.channelClosed k).account m k = h.account m k := rfl
    rw [hc, ha]
    omega

end Small

/-! ### Reads -/

section Reads

/-- No read of the link is on the stack, and nothing drops what it holds. -/
structure Free (h : TransportHost) (k : Nat) : Prop where
  idle : (h.ops k).countP Op.busy = 0
  answered : (h.side k).inRealm = false
  whole : (h.ops k).countP Op.drops = 0

theorem not_mem_of_countP {f : Op → Bool} {ops : List Op} (hz : ops.countP f = 0) {op : Op}
    (hop : f op = true) : op ∉ ops := by
  rw [List.countP_eq_zero] at hz
  exact fun hm => hz op hm hop

theorem Free.accounted (f : h.Free k) {s : Side} {live : Prop}
    (hr : s.inRealm = (h.side k).inRealm) (hg : ¬ live → s.held = [] ∨ 0 ≤ s.activeBytes) : Accounted s live (h.ops k) where
  idle := fun _ _ hm => absurd hm (not_mem_of_countP f.idle rfl)
  idleFailed := fun _ _ hm => absurd hm (not_mem_of_countP f.idle rfl)
  dropped := fun _ _ _ hm => absurd hm (not_mem_of_countP f.whole rfl)
  single := by
    have := f.whole
    omega
  halting := fun _ _ hm => absurd hm (not_mem_of_countP f.idle rfl)
  calling := fun _ _ hm => absurd hm (not_mem_of_countP f.idle rfl)
  flight := fun hf => by
    rw [hr, f.answered] at hf
    cases hf
  gone := fun hl => (hg hl).imp id .inl

/-- An op goes on the stack that agrees with what the link has in its variables. -/
theorem accounted_cons {s : Side} {live : Prop} {ops : List Op} (t : Accounted s live ops)
    {op : Op} (hi : ∀ k n, op = .idle k n ∨ op = .idleFailed k n → s.activeBytes = n)
    (hd : ∀ k freed after, op = .dropHeld k freed after →
      freed <+: s.held.map List.length ∧ ops.countP Op.drops = 0)
    (hh : ∀ k bytes, op = .halting k bytes → s.activeBytes = bytes.length)
    (hc : ∀ k bytes, op = .calling k bytes →
      s.activeBytes = bytes.length ∧ ∃ x, s.handed.getLast? = some x ∧ x.bytes = bytes) :
    Accounted s live (op :: ops) where
  idle := fun k n hm => (List.mem_cons.1 hm).elim (fun he => hi k n (.inl he.symm)) (t.idle k n)
  idleFailed := fun k n hm =>
    (List.mem_cons.1 hm).elim (fun he => hi k n (.inr he.symm)) (t.idleFailed k n)
  dropped := fun k freed after hm =>
    (List.mem_cons.1 hm).elim (fun he => (hd k freed after he.symm).1) (t.dropped k freed after)
  single := by
    have hsingle := t.single
    rw [List.countP_cons]
    split
    · rename_i hdrops
      cases op with
      | dropHeld k freed after =>
        rw [(hd k freed after rfl).2]
      | _ => cases hdrops
    · exact hsingle
  halting := fun k bytes hm =>
    (List.mem_cons.1 hm).elim (fun he => hh k bytes he.symm) (t.halting k bytes)
  calling := fun k bytes hm =>
    (List.mem_cons.1 hm).elim (fun he => hc k bytes he.symm) (t.calling k bytes)
  flight := t.flight
  gone := fun hl => (t.gone hl).imp id fun h1 => h1.imp id fun h2 => by
    rw [List.countP_cons]
    omega

/-- An op that gives nothing back goes on the stack. -/
theorem accounted_under {s : Side} {live : Prop} {ops : List Op} (t : Accounted s live ops)
    {op : Op} (hg : op.gives = false) (hb : op.busy = false) : Accounted s live (op :: ops) := by
  refine accounted_cons t ?_ ?_ ?_ ?_
  · rintro k n (rfl | rfl) <;> cases hg
  · rintro k freed after rfl
    cases hg
  · rintro k bytes rfl
    cases hb
  · rintro k bytes rfl
    cases hb

/-- The drop of what a link holds begins. -/
theorem accounted_drop {s : Side} {live live' : Prop} {ops : List Op} (t : Accounted s live ops)
    (hz : ops.countP Op.drops = 0) (k : Nat) (after : Then) :
    Accounted s live' (.dropHeld k [] after :: ops) := by
  have t' : Accounted s live (.dropHeld k [] after :: ops) := accounted_cons t (by simp)
    (fun j freed after' he => by
      simp only [Op.dropHeld.injEq] at he
      exact ⟨he.2.1 ▸ List.nil_prefix, hz⟩) (by simp) (by simp)
  exact { t' with gone := fun _ => .inr (.inr (by rw [List.countP_cons_of_pos rfl]; omega)) }

theorem accounted_pop {s : Side} {live : Prop} {op : Op} {ops : List Op}
    (t : Accounted s live (op :: ops)) (hd : op.drops = false) : Accounted s live ops where
  idle := fun k n hm => t.idle k n (by simp [hm])
  idleFailed := fun k n hm => t.idleFailed k n (by simp [hm])
  dropped := fun k freed after hm => t.dropped k freed after (by simp [hm])
  single := by simpa [hd] using t.single
  halting := fun k bytes hm => t.halting k bytes (by simp [hm])
  calling := fun k bytes hm => t.calling k bytes (by simp [hm])
  flight := t.flight
  gone := fun hl => by simpa [hd] using t.gone hl

theorem toNat_eq {n : Int} (hn : 0 ≤ n) : (n.toNat : Int) = n := Int.toNat_of_nonneg hn

theorem finished_moved (h : TransportHost) (k : Nat) : Moved h (h.finished k) k fun _ => 0 :=
  (release_moved h _ rfl).cast fun m => by simp [Op.lag]

theorem finished_accounted (t : Accounted (h.side k) (k ∈ h.links) (h.ops k))
    (ha : 0 ≤ (h.side k).activeBytes) :
    Accounted ((h.finished k).side k) (k ∈ (h.finished k).links) ((h.finished k).ops k) := by
  have hops : (h.finished k).ops k =
      .idle k (h.side k).activeBytes.toNat :: h.ops k := release_ops_self h _ rfl
  rw [hops]
  refine accounted_cons t (fun j n he => ?_) (by simp) (by simp) (by simp)
  simp only [Op.idle.injEq, reduceCtorEq, or_false] at he
  rw [← he.2, toNat_eq ha]

theorem handOver_moved (h : TransportHost) (k : Nat) (bytes : Bytes) :
    Moved h (h.handOver k bytes) k fun _ => 0 := by
  unfold handOver
  split
  · exact finished_moved h k
  · exact ((setSide_moved h k _).trans (push_moved _ rfl)).cast fun m => by
      simp [Side.charge, Op.lag]

theorem handOver_accounted (t : Accounted (h.side k) (k ∈ h.links) (h.ops k))
    (hb : (h.ops k).countP Op.busy = 0) (hr : (h.side k).inRealm = false) {bytes : Bytes}
    (ha : (h.side k).activeBytes = bytes.length) :
    Accounted ((h.handOver k bytes).side k) (k ∈ (h.handOver k bytes).links)
      ((h.handOver k bytes).ops k) := by
  unfold handOver
  split
  · exact finished_accounted t (by omega)
  · rw [push_ops_self _ rfl]
    simp only [push_side, setSide_side, push_links, setSide_links, setSide_ops]
    have t' : Accounted
        { h.side k with
          handed := (h.side k).handed ++
            [⟨bytes, decide (k ∈ h.links), (h.side k).paused, !(h.side k).inRealm⟩] }
        (k ∈ h.links) (h.ops k) :=
      { t with
        calling := fun _ _ hm => absurd hm (not_mem_of_countP hb rfl)
        flight := fun hf => by
          rw [hr] at hf
          cases hf }
    refine accounted_cons t' (by simp) (by simp) (by simp) fun j bytes' he => ?_
    simp only [Op.calling.injEq] at he
    rw [← he.2]
    exact ⟨ha, _, List.getLast?_concat, rfl⟩

theorem dispatchRead_moved (ha : (h.side k).activeBytes < 0) (bytes : Bytes) :
    Moved h (h.dispatchRead k bytes) k fun m => - m.weight bytes.length := by
  have hn : ¬ 0 ≤ (h.side k).activeBytes := by omega
  unfold dispatchRead
  simp only
  split
  · refine ((setSide_moved h k _).trans (push_moved _ rfl)).cast fun m => ?_
    simp [Side.charge, Op.lag, hn]
  · refine ((setSide_moved h k _).trans (handOver_moved _ k bytes)).cast fun m => ?_
    simp [Side.charge, hn]

theorem dispatchRead_accounted (t : Accounted (h.side k) (k ∈ h.links) (h.ops k))
    (hb : (h.ops k).countP Op.busy = 0) (hr : (h.side k).inRealm = false) (bytes : Bytes) :
    Accounted ((h.dispatchRead k bytes).side k) (k ∈ (h.dispatchRead k bytes).links)
      ((h.dispatchRead k bytes).ops k) := by
  have t' : ∀ told, Accounted { h.side k with activeBytes := bytes.length, told := told }
      (k ∈ h.links) (h.ops k) := fun told =>
    { t with
      idle := fun _ _ hm => absurd hm (not_mem_of_countP hb rfl)
      idleFailed := fun _ _ hm => absurd hm (not_mem_of_countP hb rfl)
      halting := fun _ _ hm => absurd hm (not_mem_of_countP hb rfl)
      calling := fun _ _ hm => absurd hm (not_mem_of_countP hb rfl)
      flight := fun hf => by
        rw [hr] at hf
        cases hf
      gone := fun _ => .inr (.inl (Int.natCast_nonneg _)) }
  unfold dispatchRead
  simp only
  split
  · rw [push_ops_self _ rfl]
    simp only [push_side, setSide_side, push_links, setSide_links, setSide_ops]
    refine accounted_cons (t' (some false)) (by simp) (by simp) (fun j bytes' he => ?_) (by simp)
    simp only [Op.halting.injEq] at he
    rw [← he.2]
  · refine handOver_accounted (h := h.setSide k { h.side k with activeBytes := bytes.length }) ?_
      hb (by simpa using hr) (by simp)
    simp only [setSide_side, setSide_links, setSide_ops]
    exact t' (h.side k).told

theorem resume_moved (h : TransportHost) (k : Nat) : Moved h (h.resume k) k fun _ => 0 := by
  unfold resume
  split
  · exact Moved.refl h k
  · exact ((setSide_moved h k _).trans (push_moved _ rfl)).cast fun m => by
      simp [Side.charge, Op.lag]

theorem resume_accounted (t : Accounted (h.side k) (k ∈ h.links) (h.ops k)) :
    Accounted ((h.resume k).side k) (k ∈ (h.resume k).links) ((h.resume k).ops k) := by
  unfold resume
  split
  · exact t
  · rw [push_ops_self _ rfl]
    simp only [push_side, setSide_side, push_links, setSide_links, setSide_ops]
    have t' : Accounted { h.side k with told := some true } (k ∈ h.links) (h.ops k) :=
      { t with }
    exact accounted_under t' rfl rfl

theorem readNext_moved (ha : (h.side k).activeBytes < 0) :
    Moved h (h.readNext k) k fun _ => 0 := by
  unfold readNext
  split
  · exact (push_moved h rfl).cast fun m => by simp [Op.lag]
  · split
    · exact Moved.refl h k
    · split
      · rename_i bytes rest hheld
        have hneg : ((h.setSide k { h.side k with held := rest }).side k).activeBytes < 0 := by
          simpa using ha
        refine ((setSide_moved h k _).trans (dispatchRead_moved hneg bytes)).cast fun m => ?_
        simp [Side.charge, hheld]
      · split
        · exact ⟨rfl, fun _ _ => rfl, fun _ _ => rfl, fun _ _ => Iff.rfl, fun m => by
            have hc : ({ h with starved := h.starved ++ [k] } : TransportHost).counter m =
              h.counter m := by cases m <;> rfl
            rw [hc]
            exact (Int.add_zero _).symm⟩
        · exact resume_moved h k

theorem readNext_accounted (f : h.Free k) :
    Accounted ((h.readNext k).side k) (k ∈ (h.readNext k).links) ((h.readNext k).ops k) := by
  unfold readNext
  split
  · rw [push_ops_self _ rfl]
    simp only [push_side, push_links]
    -- what holds of a link that is gone comes with the drop
    have t : Accounted (h.side k) True (h.ops k) := f.accounted rfl fun hl => absurd trivial hl
    exact accounted_drop t f.whole k .nothing
  · rename_i hin
    rw [not_not] at hin
    have t : Accounted (h.side k) (k ∈ h.links) (h.ops k) := f.accounted rfl fun hl => absurd hin hl
    split
    · exact t
    · split
      · rename_i bytes rest hheld
        refine dispatchRead_accounted (h := h.setSide k { h.side k with held := rest }) ?_
          f.idle (by simpa using f.answered) bytes
        simp only [setSide_side, setSide_links, setSide_ops]
        exact f.accounted rfl fun hl => absurd hin hl
      · split
        · exact t
        · exact resume_accounted t

end Reads

/-! ### Steps -/

section Steps

/-- What the budget takes as given: the table and the stack fit, whoever calls. -/
abbrev Fit (h : TransportHost) : Prop := h.Kept False

theorem Budget.congr (b : h.Budget) (hm : ∀ m, h'.counter m = h.counter m)
    (hn : h'.nextLinkId = h.nextLinkId) (hs : h'.side = h.side) (hl : h'.links = h.links)
    (ho : ∀ j, h'.ops j = h.ops j) : h'.Budget where
  total := fun m => by
    have hacc : h'.account m = h.account m := by
      funext j
      simp only [account, hs, ho j]
    rw [hm, hn, hacc]
    exact b.total m
  fresh := fun j hj => by
    rw [hs, ho]
    exact b.fresh j (hn ▸ hj)
  accounted := fun j => by
    rw [hs, ho, hl]
    exact b.accounted j

theorem Budget.failReadSide (b : h.Budget) (hk : k < h.nextLinkId)
    (hz : (h.ops k).countP Op.drops = 0) : (h.failReadSide k).Budget := by
  refine b.moved ((push_moved h rfl).cast fun m => by simp [Op.lag]) hk ?_
  unfold TransportHost.failReadSide
  rw [push_ops_self _ rfl]
  exact accounted_drop (b.accounted k) hz k .dropLink

theorem Budget.drain (b : h.Budget) {rest : List Op} (hs : h.stack = .drain :: rest)
    (q : h.Fit) : h.go.Budget := by
  have hops : ∀ j, ({ h with stack := rest } : TransportHost).ops j = h.ops j := by
    intro j
    rw [ops_pop hs j]
    simp [Op.link]
  have hpop : ({ h with stack := rest } : TransportHost).Budget :=
    b.congr (fun m => by cases m <;> rfl) rfl rfl rfl hops
  simp only [go, hs]
  split
  · exact hpop
  · rename_i k starved _
    split
    · exact hpop
    · rw [← hs]
      have b' : ({ h with starved } : TransportHost).Budget :=
        b.congr (fun m => by cases m <;> rfl) rfl rfl rfl fun _ => rfl
      by_cases hk : k < h.nextLinkId
      · exact b'.moved (resume_moved _ k) hk (resume_accounted (b'.accounted k))
      · have hout : k ∉ h.links := fun hm => hk (q.known k hm)
        have hsame : ({ h with starved } : TransportHost).resume k = { h with starved } := by
          simp [resume, hout]
        rw [hsame]
        exact b'

/-- A read's end: its op comes off, and the link is free again. -/
theorem idle_free (q : h.Fit) {op : Op} {rest : List Op} (hs : h.stack = op :: rest)
    (hop : op.link = some k) (hb : op.busy = true)
    (hz : (h.ops k).countP Op.drops = 0) :
    ({ h with stack := rest } : TransportHost).Free k := by
  have t := q.tended k
  unfold TendedAt at t
  rw [ops_pop_self hs hop] at t hz
  refine ⟨(t.busy_only hb).1, (t.busy_only hb).2.1, ?_⟩
  rw [List.countP_cons] at hz
  omega

theorem Budget.idle (b : h.Budget) (q : h.Fit) {n : Nat} {rest : List Op}
    (hs : h.stack = .idle k n :: rest) (hz : (h.ops k).countP Op.drops = 0) : h.go.Budget := by
  have hf := idle_free q hs rfl rfl hz
  have hn : (h.side k).activeBytes = n := (b.accounted k).idle k n (by simp [ops_pop_self hs rfl])
  simp only [go, hs]
  have hneg : ((({ h with stack := rest } : TransportHost).setSide k
      { h.side k with activeBytes := -1 }).side k).activeBytes < 0 := by simp
  refine b.moved ((((pop_moved hs rfl).trans (setSide_moved _ k _)).trans
    (readNext_moved hneg)).cast fun m => ?_) (b.made hs rfl) ?_
  · simp [Op.lag, Side.charge, hn]
  · exact readNext_accounted ⟨hf.idle, by simpa using hf.answered, hf.whole⟩

theorem Budget.idleFailed (b : h.Budget) (q : h.Fit) {n : Nat} {rest : List Op}
    (hs : h.stack = .idleFailed k n :: rest) (hz : (h.ops k).countP Op.drops = 0) :
    h.go.Budget := by
  have hf := idle_free q hs rfl rfl hz
  have hn : (h.side k).activeBytes = n :=
    (b.accounted k).idleFailed k n (by simp [ops_pop_self hs rfl])
  simp only [go, hs]
  refine b.moved ((((pop_moved hs rfl).trans (setSide_moved _ k _)).trans
    (push_moved _ rfl)).cast fun m => ?_) (b.made hs rfl) ?_
  · simp [Op.lag, Side.charge, hn]
  · unfold TransportHost.failReadSide
    rw [push_ops_self _ rfl]
    simp only [push_side, push_links, setSide_side, setSide_links, setSide_ops]
    have t : Accounted { h.side k with activeBytes := -1 } True
        (({ h with stack := rest } : TransportHost).ops k) :=
      hf.accounted rfl fun hl => absurd trivial hl
    exact accounted_drop t hf.whole k .dropLink

theorem freed_next {held : List Bytes} {freed : List Nat} {bytes : Bytes}
    (hp : freed <+: held.map List.length) (hb : held[freed.length]? = some bytes) :
    freed ++ [bytes.length] <+: held.map List.length := by
  obtain ⟨rest, hr⟩ := hp
  have hget : (held.map List.length)[freed.length]? = some bytes.length := by simp [hb]
  rw [← hr, List.getElem?_append_right le_rfl, Nat.sub_self] at hget
  cases rest with
  | nil => cases hget
  | cons x rest =>
    simp only [List.getElem?_cons_zero, Option.some.injEq] at hget
    exact ⟨rest, by rw [← hr, hget]; simp⟩

theorem freed_all {held : List Bytes} {freed : List Nat}
    (hp : freed <+: held.map List.length) (hb : held[freed.length]? = none) :
    freed = held.map List.length := by
  have hlen := List.getElem?_eq_none_iff.1 hb
  exact hp.eq_of_length_le (by simpa using hlen)

theorem Budget.dropHeld (b : h.Budget) {freed : List Nat} {after : Then} {rest : List Op}
    (hs : h.stack = .dropHeld k freed after :: rest) (q : h.Fit) : h.go.Budget := by
  have hops := ops_pop_self hs (k := k) rfl
  have t := b.accounted k
  rw [hops] at t
  have hp : freed <+: (h.side k).held.map List.length := t.dropped k freed after (by simp)
  have hz : (({ h with stack := rest } : TransportHost).ops k).countP Op.drops = 0 := by
    have := t.single
    rw [List.countP_cons_of_pos rfl] at this
    omega
  -- nothing else drops what the link holds
  have tr : ∀ s : Side, s.activeBytes = (h.side k).activeBytes → s.handed = (h.side k).handed →
      s.inRealm = (h.side k).inRealm → ∀ live, (¬ live → s.held = []) →
      Accounted s live (({ h with stack := rest } : TransportHost).ops k) :=
    fun s ha hh hr live hl => {
      idle := fun j n hm => by
        rw [ha]
        exact t.idle j n (by simp [hm])
      idleFailed := fun j n hm => by
        rw [ha]
        exact t.idleFailed j n (by simp [hm])
      dropped := fun _ _ _ hm => absurd hm (not_mem_of_countP hz rfl)
      single := by omega
      halting := fun j bytes hm => by
        rw [ha]
        exact t.halting j bytes (by simp [hm])
      calling := fun j bytes hm => by
        rw [ha, hh]
        exact t.calling j bytes (by simp [hm])
      flight := fun hf => by
        rw [ha, hh]
        exact t.flight (hr ▸ hf)
      gone := fun hn => .inl (hl hn) }
  simp only [go, hs]
  split
  · rename_i bytes hb
    refine b.moved (((pop_moved hs rfl).trans (release_moved _ _ rfl)).cast fun m => ?_)
      (b.made hs rfl) ?_
    · simp only [Op.lag, List.map_append, List.sum_append, List.map_cons, List.map_nil,
        List.sum_singleton]
      omega
    · rw [release_ops_self _ _ rfl]
      have t' : Accounted (h.side k) True (({ h with stack := rest } : TransportHost).ops k) :=
        tr _ rfl rfl rfl True fun hn => absurd trivial hn
      have t'' : Accounted (h.side k) True (.dropHeld k (freed ++ [bytes.length]) after ::
          ({ h with stack := rest } : TransportHost).ops k) := accounted_cons t' (by simp)
        (fun j f a he => by
          simp only [Op.dropHeld.injEq] at he
          exact ⟨he.2.1 ▸ freed_next hp hb, hz⟩) (by simp) (by simp)
      exact { t'' with gone := fun _ => .inr (.inr (by rw [List.countP_cons_of_pos rfl]; omega)) }
  · rename_i hb
    have hall := freed_all hp hb
    have te : ∀ live, Accounted { h.side k with held := [] } live
        (({ h with stack := rest } : TransportHost).ops k) :=
      fun live => tr { h.side k with held := [] } rfl rfl rfl live fun _ => rfl
    -- the host once the last is dropped
    obtain ⟨h₁, h₁_eq⟩ : ∃ h₁, h₁ = ({ h with stack := rest } : TransportHost).setSide k
      { h.side k with held := [] } := ⟨_, rfl⟩
    have hmoved : Moved h h₁ k fun _ => 0 := by
      rw [h₁_eq]
      refine ((pop_moved hs rfl).trans (setSide_moved _ k _)).cast fun m => ?_
      simp [Op.lag, Side.charge, hall, Function.comp_def]
    have hside : h₁.side k = { h.side k with held := [] } := by
      rw [h₁_eq]
      exact setSide_side _ k _
    have hops₁ : h₁.ops k = ({ h with stack := rest } : TransportHost).ops k := by rw [h₁_eq]; rfl
    have hn : h₁.links.Nodup := by
      rw [h₁_eq]
      exact q.nodup
    rw [← h₁_eq]
    cases after with
    | nothing =>
      refine b.moved hmoved (b.made hs rfl) ?_
      rw [hside, hops₁]
      exact te _
    | channelClosed =>
      refine b.moved ((hmoved.trans (channelClosed_moved hn k)).cast fun _ => rfl)
        (b.made hs rfl) ?_
      have hside' : (h₁.channelClosed k).side k = h₁.side k := rfl
      have hops' : (h₁.channelClosed k).ops k = h₁.ops k := rfl
      rw [hside', hops', hside, hops₁]
      exact te _
    | dropLink =>
      refine b.moved ((hmoved.trans (push_moved _ rfl)).cast fun m => by simp [Op.lag])
        (b.made hs rfl) ?_
      rw [push_ops_self _ rfl, hops₁]
      simp only [push_side, hside]
      exact accounted_under (te _) rfl rfl

/-- An op that gave nothing back comes off, and another takes its place. -/
theorem Budget.instead (b : h.Budget) {op op' : Op} {rest : List Op} (hs : h.stack = op :: rest)
    (hop : op.link = some k) (hop' : op'.link = some k) (hg : op.gives = false)
    (hg' : op'.gives = false) (hb' : op'.busy = false) :
    ({ h with stack := op' :: rest } : TransportHost).Budget := by
  have hd : op.drops = false := by cases op <;> first | rfl | cases hg
  have hl : ∀ op : Op, op.gives = false → ∀ m, op.lag m = 0 := by
    intro op hg m
    cases op <;> first | rfl | cases hg
  have ho : ({ h with stack := rest } : TransportHost).push [op'] =
      { h with stack := op' :: rest } := rfl
  rw [← ho]
  refine b.moved (((pop_moved hs hop).trans (push_moved _ hop')).cast fun m => ?_)
    (b.made hs hop) ?_
  · rw [hl op hg, hl op' hg']
    rfl
  · have t := b.accounted k
    rw [ops_pop_self hs hop] at t
    rw [push_ops_self _ hop']
    exact accounted_under (accounted_pop t hd) hg' hb'

theorem Budget.pop (b : h.Budget) {op : Op} {rest : List Op} (hs : h.stack = op :: rest)
    (hop : op.link = some k) (hg : op.gives = false) :
    ({ h with stack := rest } : TransportHost).Budget := by
  have hd : op.drops = false := by cases op <;> first | rfl | cases hg
  refine b.moved ((pop_moved hs hop).cast fun m => ?_) (b.made hs hop) ?_
  · cases op <;> first | rfl | cases hg
  · have t := b.accounted k
    rw [ops_pop_self hs hop] at t
    exact accounted_pop t hd

/-- Nothing is dropping what the link holds. -/
def Whole (h : TransportHost) (k : Nat) : Prop := (h.ops k).countP Op.drops = 0

/-- The link may leave the table: it holds no read, or has one in flight. -/
def Clear (h : TransportHost) (k : Nat) : Prop :=
  k ∈ h.links → (h.side k).held = [] ∨ 0 ≤ (h.side k).activeBytes

def Refuses (h : TransportHost) (k : Nat) (bytes : Bytes) : Prop :=
  maxLinkReadBytes < bytes.length ∨
    (h.reserveInboundRead bytes.length (h.side k).pausable).isNone = true

instance (h : TransportHost) (k : Nat) : Decidable (h.Whole k) :=
  inferInstanceAs (Decidable (_ = _))

instance (h : TransportHost) (k : Nat) : Decidable (h.Clear k) :=
  inferInstanceAs (Decidable (_ → _ ∨ _))

instance (h : TransportHost) (k : Nat) (bytes : Bytes) : Decidable (h.Refuses k bytes) :=
  inferInstanceAs (Decidable (_ ∨ _))

/-- What the budget asks for. A link that was closed on this side, and is still in the table
when its adapter's `close` has returned or on the turn after a `link/close`, holds no read or
has one in flight. And while the reads a link holds are being dropped, its read side is not
entered again: no further close callback, no throwing `setReadable`, no refused read and none
that finishes there. -/
def Calm (h : TransportHost) : Label → Prop
  | .go =>
    match h.stack.head? with
    | some (.idle k _) => h.Whole k
    | some (.idleFailed k _) => h.Whole k
    | _ => True
  | .back a =>
    match h.stack.head? with
    | some (.resuming k) => a = .threw → h.Whole k
    | some (.pausing k) => a = .threw → h.Whole k
    | some (.shutting k) => h.Clear k
    | _ => True
  | .onData k bytes => h.Outside → k ∈ h.links → h.Refuses k bytes → h.Whole k
  | .onClose k => h.Outside → h.Whole k
  | .microtask => h.Rest → ∀ k ∈ h.later.head?, h.Clear k
  | _ => True

theorem Budget.go (b : h.Budget) (q : h.Fit) (hc : h.Calm .go) : h.go.Budget := by
  cases hs : h.stack with
  | nil =>
    have hops : ∀ j, h.ops j = [] := fun j => by simp [ops, hs]
    simp only [TransportHost.go, hs]
    split
    · exact b
    · exact b.congr (fun m => by cases m <;> rfl) rfl rfl rfl fun j => (hops j).symm
  | cons op rest =>
    cases op with
    | drain => exact b.drain hs q
    | idle k n =>
      have hw : h.Whole k := by simpa [Calm, hs] using hc
      exact b.idle q hs hw
    | idleFailed k n =>
      have hw : h.Whole k := by simpa [Calm, hs] using hc
      exact b.idleFailed q hs hw
    | dropHeld k freed after => exact b.dropHeld hs q
    | dropLink k =>
      simp only [TransportHost.go, hs]
      exact b.instead hs rfl rfl rfl rfl rfl
    | _ =>
      simp only [TransportHost.go, hs]
      exact b

theorem Budget.setting_back (b : h.Budget) {op : Op} {rest : List Op}
    (hs : h.stack = op :: rest) (hop : op.link = some k) (hg : op.gives = false) (a : Answer)
    (hz : a = .threw → h.Whole k) :
    (if a = .threw then ({ h with stack := rest } : TransportHost).failReadSide k
      else { h with stack := rest }).Budget := by
  have b' := b.pop hs hop hg
  split
  · rename_i ha
    refine b'.failReadSide (b.made hs hop) ?_
    have := hz ha
    unfold Whole at this
    rw [ops_pop_self hs hop, List.countP_cons] at this
    omega
  · exact b'

theorem Budget.back (b : h.Budget) (q : h.Fit) (a : Answer) (hc : h.Calm (.back a)) :
    (h.back a).Budget := by
  cases hs : h.stack with
  | nil =>
    simp only [TransportHost.back, hs]
    exact b
  | cons op rest =>
    cases op with
    | resuming k =>
      simp only [TransportHost.back, hs]
      exact b.setting_back hs rfl rfl a (by simpa [Calm, hs] using hc)
    | pausing k =>
      simp only [TransportHost.back, hs]
      exact b.setting_back hs rfl rfl a (by simpa [Calm, hs] using hc)
    | halting k bytes =>
      have b' := b.pop hs rfl rfl
      obtain ⟨-, t⟩ := q.pop hs rfl
      obtain ⟨bt, ha⟩ := t.busy_pop rfl rfl
      simp only [TransportHost.back, hs]
      split
      · refine b'.moved ((release_moved _ _ rfl).cast fun m => by simp [Op.lag])
          (b.made hs rfl) ?_
        rw [release_ops_self _ _ rfl]
        refine accounted_cons (b'.accounted k) (fun j n he => ?_) (by simp) (by simp) (by simp)
        simp only [reduceCtorEq, Op.idleFailed.injEq, false_or] at he
        rw [← he.2]
        exact (toNat_eq ha).symm
      · have hw := (b.accounted k).halting k bytes (by simp [ops_pop_self hs rfl])
        exact b'.moved (handOver_moved _ k bytes) (b.made hs rfl)
          (handOver_accounted (b'.accounted k) bt.idle bt.answered hw)
    | calling k bytes =>
      have b' := b.pop hs rfl rfl
      obtain ⟨-, t⟩ := q.pop hs rfl
      obtain ⟨bt, ha⟩ := t.busy_pop rfl rfl
      simp only [TransportHost.back, hs]
      split
      · refine b'.moved ((setSide_moved _ k _).cast fun m => by simp [Side.charge])
          (b.made hs rfl) ?_
        simp only [setSide_side, setSide_links, setSide_ops]
        obtain ⟨hw, x, hx, hxb⟩ := (b.accounted k).calling k bytes (by simp [ops_pop_self hs rfl])
        exact { b'.accounted k with flight := fun _ => ⟨x, hx, by rw [hxb]; exact hw⟩ }
      · exact b'.moved (finished_moved _ k) (b.made hs rfl)
          (finished_accounted (b'.accounted k) ha)
    | shutting k =>
      have b' := b.pop hs rfl rfl
      simp only [TransportHost.back, hs]
      refine b'.moved (channelClosed_moved (h := { h with stack := rest }) q.nodup k)
        (b.made hs rfl) ?_
      have hclear : h.Clear k := by simpa [Calm, hs] using hc
      have t' := b'.accounted k
      exact { t' with
        gone := fun _ => by
          by_cases hin : k ∈ h.links
          · exact (hclear hin).imp id .inl
          · exact t'.gone hin }
    | closing k =>
      have b' := b.pop hs rfl rfl
      simp only [TransportHost.back, hs]
      exact b'.congr (fun m => by cases m <;> rfl) rfl rfl rfl fun _ => rfl
    | _ =>
      simp only [TransportHost.back, hs]
      exact b

theorem Budget.onData (b : h.Budget) (q : h.Fit) (k : Nat) (bytes : Bytes) (ho : h.Outside)
    (hc : h.Calm (.onData k bytes)) : (h.onData k bytes).Budget := by
  unfold TransportHost.onData
  split
  · exact b
  · rename_i hin
    rw [not_not] at hin
    have hk := q.known k hin
    have b₁ : (h.setSide k
        { h.side k with arrived := (h.side k).arrived ++ [bytes] }).Budget := by
      refine b.moved ((setSide_moved h k _).cast fun m => by simp [Side.charge]) hk ?_
      simp only [setSide_side, setSide_links, setSide_ops]
      exact { b.accounted k with }
    have refused : h.Refuses k bytes → ((h.setSide k
        { h.side k with arrived := (h.side k).arrived ++ [bytes] }).failReadSide k).Budget :=
      fun hr => b₁.failReadSide hk (hc ho hin hr)
    simp only
    split
    · rename_i hlong
      exact refused (.inl hlong)
    · split
      · rename_i hres
        refine refused (.inr ?_)
        rw [setSide_side] at hres
        have : h.reserveInboundRead bytes.length (h.side k).pausable = none := by
          unfold reserveInboundRead at hres ⊢
          split at hres
          · rename_i hno
            exact if_pos hno
          · cases hres
        rw [this]
        rfl
      · rename_i h' hres
        have hmoved : Moved h h' k fun m => m.weight bytes.length := by
          unfold reserveInboundRead at hres
          split at hres
          · cases hres
          · obtain rfl := Option.some.inj hres
            refine ⟨rfl, fun j hj => setSide_side_ne h _ hj, fun _ _ => rfl,
              fun _ _ => Iff.rfl, fun m => ?_⟩
            have hacc : (h.setSide k { h.side k with
                arrived := (h.side k).arrived ++ [bytes] }).account m k = h.account m k := by
              simp [account, Side.charge]
            cases m <;> simp only [counter, Measure.weight] <;>
              simp only [account, Side.charge, setSide_side, setSide_ops] at hacc ⊢ <;>
              exact by
                simp only [setSide, ops]
                omega
        have hside : h'.side k = { h.side k with arrived := (h.side k).arrived ++ [bytes] } := by
          unfold reserveInboundRead at hres
          split at hres
          · cases hres
          · obtain rfl := Option.some.inj hres
            exact setSide_side h k _
        have hrest : h'.links = h.links ∧ h'.ops k = h.ops k := by
          unfold reserveInboundRead at hres
          split at hres
          · cases hres
          · obtain rfl := Option.some.inj hres
            exact ⟨rfl, rfl⟩
        have t' : Accounted (h'.side k) (k ∈ h'.links) (h'.ops k) := by
          rw [hside, hrest.1, hrest.2]
          exact { b.accounted k with }
        split
        · rename_i hidle
          have hbusy := (q.tended k).busy
          have hneg : ¬ 0 ≤ (h.side k).activeBytes := by
            rw [hside] at hidle
            have := hidle.1
            simp only at this
            omega
          simp only [hneg, if_false] at hbusy
          refine b.moved ((hmoved.trans (dispatchRead_moved hidle.1 bytes)).cast fun m => ?_) hk
            (dispatchRead_accounted t' ?_ ?_ bytes)
          · omega
          · rw [hrest.2]
            omega
          · rw [hside]
            cases hr : (h.side k).inRealm
            · rfl
            · simp only [hr, if_true] at hbusy
              omega
        · refine b.moved ((hmoved.trans (setSide_moved h' k _)).cast fun m => ?_) hk ?_
          · simp [Side.charge]
          · simp only [setSide_side, setSide_links, setSide_ops]
            exact { t' with
              dropped := fun j freed after hm => by
                refine (t'.dropped j freed after hm).trans ?_
                simp
              gone := fun hl => absurd (hrest.1 ▸ hin) hl }

theorem Budget.onClose (b : h.Budget) (k : Nat) (hz : h.Whole k) : (h.onClose k).Budget := by
  unfold TransportHost.onClose
  split
  · rename_i hk
    refine b.moved ((push_moved h rfl).cast fun m => by simp [Op.lag]) hk ?_
    rw [push_ops_self _ rfl]
    exact accounted_drop (b.accounted k) hz k .channelClosed
  · exact b

theorem Budget.push (b : h.Budget) {op : Op} (hop : op.link = some k) (hk : k < h.nextLinkId)
    (hg : op.gives = false) (hb : op.busy = false) : (h.push [op]).Budget := by
  refine b.moved ((push_moved h hop).cast fun m => ?_) hk ?_
  · cases op <;> first | rfl | cases hg
  · rw [push_ops_self _ hop]
    exact accounted_under (b.accounted k) hg hb

/-- With nothing on the stack and nothing in the realm a link is free. -/
theorem free_at_rest (q : h.Fit) (hs : h.stack = []) (ha : (h.side k).activeBytes < 0) :
    h.Free k := by
  obtain ⟨hops, hiff⟩ := q.at_rest hs k
  refine ⟨by rw [hops]; rfl, ?_, by rw [hops]; rfl⟩
  cases hr : (h.side k).inRealm
  · rfl
  · have := hiff.1 hr
    omega

theorem Budget.pause (b : h.Budget) (q : h.Fit) (hs : h.stack = []) (k : Nat) (on : Bool) :
    (h.pause k on).Budget := by
  unfold TransportHost.pause
  split
  · exact b
  · rename_i hin
    rw [not_not] at hin
    have hk := q.known k hin
    have b₁ : (h.setSide k { h.side k with paused := on }).Budget := by
      refine b.moved ((setSide_moved h k _).cast fun m => by simp [Side.charge]) hk ?_
      simp only [setSide_side, setSide_links, setSide_ops]
      exact { b.accounted k with }
    simp only
    split
    · split
      · have b₂ : ((h.setSide k { h.side k with paused := on }).setSide k
            { (h.setSide k { h.side k with paused := on }).side k with
              told := some false }).Budget := by
          refine b₁.moved ((setSide_moved _ k _).cast fun m => by simp [Side.charge]) hk ?_
          simp only [setSide_side, setSide_links, setSide_ops]
          exact { b.accounted k with }
        exact b₂.push rfl hk rfl rfl
      · exact b₁
    · split
      · rename_i hneg
        have hnn : ¬ 0 ≤ ((h.setSide k { h.side k with paused := on }).side k).activeBytes :=
          not_le.2 hneg
        have hf := free_at_rest q hs (k := k) (by simpa using hneg)
        unfold releaseRead
        rw [if_neg hnn]
        exact b₁.moved (readNext_moved hneg) hk
          (readNext_accounted ⟨hf.idle, by simpa using hf.answered, hf.whole⟩)
      · exact b₁

theorem Budget.settle (b : h.Budget) (q : h.Fit) (hs : h.stack = [])
    (hr : (h.side k).inRealm = true) :
    ((h.setSide k { h.side k with inRealm := false }).releaseRead k).Budget := by
  obtain ⟨hops, hiff⟩ := q.at_rest hs k
  have ha := hiff.1 hr
  have hk : k < h.nextLinkId := by
    by_contra hn
    have := (b.fresh k (by omega)).2.1
    omega
  have b₁ : (h.setSide k { h.side k with inRealm := false }).Budget := by
    refine b.moved ((setSide_moved h k _).cast fun m => by simp [Side.charge]) hk ?_
    simp only [setSide_side, setSide_links, setSide_ops]
    exact { b.accounted k with flight := fun hf => by cases hf }
  unfold releaseRead
  rw [if_pos (by simpa using ha)]
  exact b₁.moved (finished_moved _ k) hk (finished_accounted (b₁.accounted k) (by simpa using ha))

theorem Budget.microtask (b : h.Budget) (q : h.Fit) (hc : h.Clear k) :
    (h.channelClosed k).Budget := by
  by_cases hin : k ∈ h.links
  · refine b.moved (channelClosed_moved q.nodup k) (q.known k hin) ?_
    exact { b.accounted k with gone := fun _ => (hc hin).imp id .inl }
  · have hsame : h.channelClosed k = h := by simp [channelClosed, List.erase_of_not_mem hin]
    rw [hsame]
    exact b

theorem Budget.register (b : h.Budget) (pausable : Bool) :
    (h.register pausable).Budget := by
  unfold TransportHost.register
  split
  · exact b
  · have hz := b.fresh h.nextLinkId le_rfl
    have hside : ∀ j, j ≠ h.nextLinkId →
        (Function.update h.side h.nextLinkId (Side.new pausable)) j = h.side j :=
      fun j hj => by simp [hj]
    have hnew : (Function.update h.side h.nextLinkId (Side.new pausable)) h.nextLinkId =
        Side.new pausable := by simp
    exact {
      total := fun m => by
        have hsame : (List.range h.nextLinkId).map (({ h with
              nextLinkId := h.nextLinkId + 1
              side := Function.update h.side h.nextLinkId (.new pausable)
              links := h.links ++ [h.nextLinkId] } : TransportHost).account m) =
            (List.range h.nextLinkId).map (h.account m) := by
          apply List.map_congr_left
          intro j hj
          have := List.mem_range.1 hj
          simp only [account, hside j (by omega)]
          rfl
        have hzero : (({ h with
              nextLinkId := h.nextLinkId + 1
              side := Function.update h.side h.nextLinkId (.new pausable)
              links := h.links ++ [h.nextLinkId] } : TransportHost).account m) h.nextLinkId = 0 := by
          have hops : ({ h with
              nextLinkId := h.nextLinkId + 1
              side := Function.update h.side h.nextLinkId (.new pausable)
              links := h.links ++ [h.nextLinkId] } : TransportHost).ops h.nextLinkId = [] := hz.2.2
          simp only [account, hnew, hops]
          simp [Side.charge, Side.new, lagging]
        simp only [List.range_succ, List.map_append, hsame, List.sum_append, List.map_cons,
          List.map_nil, List.sum_singleton, hzero, Int.add_zero]
        exact b.total m
      fresh := fun j hj => by
        simp only at hj
        simp only [hside j (by omega)]
        exact b.fresh j (by omega)
      accounted := fun j => by
        by_cases hj : j = h.nextLinkId
        · subst hj
          have hops : ({ h with
              nextLinkId := h.nextLinkId + 1
              side := Function.update h.side h.nextLinkId (.new pausable)
              links := h.links ++ [h.nextLinkId] } : TransportHost).ops h.nextLinkId = [] := hz.2.2
          rw [hops]
          simp only [hnew]
          constructor <;> simp [Side.new]
        · simp only [hside j hj]
          have t := b.accounted j
          exact { t with
            gone := fun hl => t.gone fun hm => hl (List.mem_append_left _ hm) } }

theorem Budget.reset (b : h.Budget) (q : h.Fit) (hs : h.stack = []) (bind : Bool) :
    (h.reset bind).Budget := by
  have hdrops : ∀ j, ∀ op ∈ (h.reset bind).ops j, op = .dropLink j := by
    intro j op hop
    obtain ⟨hm, hlink⟩ := List.mem_filter.1 hop
    obtain ⟨i, -, rfl⟩ := List.mem_map.1 hm
    simpa [Op.link] using hlink
  have hnone : ∀ (f : Op → Bool) j, f (.dropLink j) = false →
      ((h.reset bind).ops j).countP f = 0 := by
    intro f j hf
    rw [List.countP_eq_zero]
    intro op hop
    rw [hdrops j op hop, hf]
    exact Bool.false_ne_true
  exact {
    total := fun m => by
      have hacc : (h.reset bind).account m = h.account m := by
        funext j
        have hlag : lagging m ((h.reset bind).ops j) = 0 := by
          apply List.sum_eq_zero
          intro x hx
          obtain ⟨op, hop, rfl⟩ := List.mem_map.1 hx
          rw [hdrops j op hop]
          rfl
        have hops : h.ops j = [] := (q.at_rest hs j).1
        have hold : lagging m (h.ops j) = 0 := by rw [hops]; rfl
        simp only [account, hlag, hold]
        rfl
      rw [hacc]
      exact b.total m
    fresh := fun j hj => by
      obtain ⟨hh, ha, -⟩ := b.fresh j hj
      refine ⟨hh, ha, ?_⟩
      apply List.filter_eq_nil_iff.2
      intro op hop
      obtain ⟨i, hi, rfl⟩ := List.mem_map.1 hop
      have := q.known i hi
      simp only [Op.link, Option.some.injEq, decide_eq_true_eq]
      have hj' : h.nextLinkId ≤ j := hj
      omega
    accounted := fun j => by
      have t := b.accounted j
      have hops : h.ops j = [] := (q.at_rest hs j).1
      rw [hops] at t
      exact { t with
        idle := fun _ _ hm => absurd hm (not_mem_of_countP (hnone Op.busy j rfl) rfl)
        idleFailed := fun _ _ hm => absurd hm (not_mem_of_countP (hnone Op.busy j rfl) rfl)
        dropped := fun _ _ _ hm => absurd hm (not_mem_of_countP (hnone Op.drops j rfl) rfl)
        single := by rw [hnone Op.drops j rfl]; omega
        halting := fun _ _ hm => absurd hm (not_mem_of_countP (hnone Op.busy j rfl) rfl)
        calling := fun _ _ hm => absurd hm (not_mem_of_countP (hnone Op.busy j rfl) rfl)
        gone := fun hl => (t.gone hl).imp id fun h1 => h1.imp id fun h2 => by simp at h2 } }

theorem Budget.step (b : h.Budget) (q : h.Fit) (l : Label) (hc : h.Calm l) :
    (h.step l).Budget := by
  cases l with
  | go => exact b.go q hc
  | back a => exact b.back q a hc
  | onData k bytes =>
    simp only [TransportHost.step]
    split
    · rename_i ho
      exact b.onData q k bytes ho hc
    · exact b
  | onClose k =>
    simp only [TransportHost.step]
    split
    · rename_i ho
      exact b.onClose k (hc ho)
    · exact b
  | register pausable =>
    simp only [TransportHost.step]
    split
    · exact b.register pausable
    · exact b
  | pause k on =>
    simp only [TransportHost.step]
    split
    · rename_i hr
      exact b.pause q hr.1.1 k on
    · exact b
  | close k =>
    simp only [TransportHost.step]
    split
    · rename_i hr
      exact b.push rfl (q.known k hr.2.2) rfl rfl
    · exact b
  | sendThrew k =>
    simp only [TransportHost.step]
    split
    · rename_i hr
      exact b.push rfl (q.known k hr.2.2) rfl rfl
    · exact b
  | settle k =>
    simp only [TransportHost.step]
    split
    · rename_i hr
      exact b.settle q hr.1.1 hr.2
    · exact b
  | microtask =>
    simp only [TransportHost.step]
    split
    · exact b
    · rename_i k rest hl
      split
      · rename_i hr
        have b' : ({ h with later := rest } : TransportHost).Budget :=
          b.congr (fun m => by cases m <;> rfl) rfl rfl rfl fun _ => rfl
        have q' : ({ h with later := rest } : TransportHost).Fit :=
          ⟨q.nodup, q.known, q.shut, q.binding, q.starved, q.tended⟩
        exact b'.microtask q' (hc hr k (by simp [hl]))
      · exact b
  | activate =>
    simp only [TransportHost.step]
    split
    · rename_i hr
      unfold activate
      split
      · have b' := b.reset q hr.1.1 true
        exact b'.congr (fun m => by cases m <;> rfl) rfl rfl rfl fun _ => rfl
      · exact b.congr (fun m => by cases m <;> rfl) rfl rfl rfl fun _ => rfl
    · exact b
  | release =>
    simp only [TransportHost.step]
    split
    · rename_i hr
      unfold release
      split
      · have b' := b.reset q hr.1 false
        exact b'.congr (fun m => by cases m <;> rfl) rfl rfl rfl fun _ => rfl
      · exact b
    · exact b
  | reset =>
    simp only [TransportHost.step]
    split
    · rename_i hr
      exact b.reset q hr.1 false
    · exact b
  | shut =>
    simp only [TransportHost.step]
    split
    · rename_i hr
      unfold close
      split
      · exact b
      · have b' := b.reset q hr.1 false
        exact b'.congr (fun m => by cases m <;> rfl) rfl rfl rfl fun _ => rfl
    · exact b

end Steps

/-! ### Runs -/

section Runs

theorem weight_nonneg (m : Measure) (length : Nat) : 0 ≤ m.weight length := by
  cases m <;> simp [Measure.weight]

theorem weights_nonneg {α : Type} (m : Measure) (f : α → Nat) (l : List α) :
    0 ≤ (l.map fun x => m.weight (f x)).sum := by
  apply List.sum_nonneg
  intro x hx
  obtain ⟨y, -, rfl⟩ := List.mem_map.1 hx
  exact weight_nonneg m (f y)

/-- What each op lags by is bounded by its kind. -/
theorem lagging_le {m : Measure} {A H : Int} {ops : List Op}
    (hop : ∀ op ∈ ops, op.lag m ≤ (if op.busy then A else 0) + (if op.drops then H else 0)) :
    lagging m ops ≤ (ops.countP Op.busy : Int) * A + (ops.countP Op.drops : Int) * H := by
  induction ops with
  | nil => simp [lagging]
  | cons op ops ih =>
    have hrest := ih fun x hx => hop x (by simp [hx])
    have hthis := hop op (by simp)
    simp only [lagging, List.map_cons, List.sum_cons] at hrest ⊢
    rw [List.countP_cons, List.countP_cons]
    by_cases hb : op.busy = true <;> by_cases hd : op.drops = true <;>
      simp only [hb, hd, if_true, if_false, Bool.false_eq_true] at hthis ⊢ <;>
      push_cast <;> linarith

/-- A link never lags by more than it holds. -/
theorem account_nonneg (b : h.Budget) (q : h.Fit) (m : Measure) (k : Nat) : 0 ≤ h.account m k := by
  have t := b.accounted k
  have hbusy := (q.tended k).busy
  have hH : 0 ≤ ((h.side k).held.map fun bytes => m.weight bytes.length).sum :=
    weights_nonneg m List.length (h.side k).held
  have hA : 0 ≤ if 0 ≤ (h.side k).activeBytes then m.weight (h.side k).activeBytes.toNat else 0 := by
    split
    · exact weight_nonneg m _
    · exact le_rfl
  have hlag : lagging m (h.ops k) ≤
      ((h.ops k).countP Op.busy : Int) *
        (if 0 ≤ (h.side k).activeBytes then m.weight (h.side k).activeBytes.toNat else 0) +
      ((h.ops k).countP Op.drops : Int) *
        ((h.side k).held.map fun bytes => m.weight bytes.length).sum := by
    apply lagging_le
    intro op hop
    cases op with
    | idle j n =>
      have hn := t.idle j n hop
      simp [Op.lag, Op.busy, Op.drops, hn]
    | idleFailed j n =>
      have hn := t.idleFailed j n hop
      simp [Op.lag, Op.busy, Op.drops, hn]
    | dropHeld j freed after =>
      obtain ⟨rest, hr⟩ := t.dropped j freed after hop
      have hsum : ((h.side k).held.map fun bytes => m.weight bytes.length).sum =
          (freed.map m.weight).sum + (rest.map m.weight).sum := by
        rw [← List.sum_append, ← List.map_append, hr, List.map_map]
        rfl
      have hrest : 0 ≤ (rest.map m.weight).sum := weights_nonneg m id rest
      simp only [Op.lag, Op.busy, Op.drops, hsum, Bool.false_eq_true, if_false, if_true]
      omega
    | _ =>
      simp only [Op.lag, Op.busy, Op.drops, Bool.false_eq_true, if_false, if_true, Int.add_zero]
      first | exact le_rfl | exact hA
  have hcount : (h.ops k).countP Op.busy ≤ 1 := by
    split at hbusy <;> split at hbusy <;> omega
  have hsingle := t.single
  have hbound : ∀ (n : Nat) (x : Int), n ≤ 1 → 0 ≤ x → (n : Int) * x ≤ x := by
    intro n x hn hx
    have : (n : Int) ≤ 1 := by omega
    nlinarith
  have h1 := hbound _ _ hcount hA
  have h2 := hbound _ _ hsingle hH
  simp only [account, Side.charge]
  omega

theorem new_budget (maxRawLinks : Nat) : (new maxRawLinks).Budget where
  total := fun m => by
    have hz : (new maxRawLinks).account m 0 = 0 := by
      simp [new, account, Side.charge, Side.new, lagging, ops]
    have hn : (new maxRawLinks).nextLinkId = 1 := rfl
    rw [hn]
    cases m <;> simp [hz, counter, List.range_succ] <;> rfl
  fresh := fun k _ => by simp [new, Side.new, ops]
  accounted := fun k => by
    constructor <;> simp [new, Side.new, ops]

def Calmly (h : TransportHost) : List Label → Prop
  | [] => True
  | l :: labels => h.Calm l ∧ (h.step l).Calmly labels

instance (h : TransportHost) (l : Label) : Decidable (h.Calm l) := by
  unfold Calm
  split
  · split <;> infer_instance
  · split <;> infer_instance
  · infer_instance
  · infer_instance
  · infer_instance
  · infer_instance

instance instDecidableCalmly (h : TransportHost) (labels : List Label) :
    Decidable (h.Calmly labels) :=
  match labels with
  | [] => isTrue trivial
  | l :: labels =>
    have := instDecidableCalmly (h.step l) labels
    inferInstanceAs (Decidable (h.Calm l ∧ (h.step l).Calmly labels))

theorem Budget.run (b : h.Budget) (q : h.Fit) (labels : List Label) (hc : h.Calmly labels) :
    (h.run labels).Budget ∧ (h.run labels).Fit := by
  induction labels generalizing h with
  | nil => exact ⟨b, q⟩
  | cons l labels ih => exact ih (b.step q l hc.1) (step_kept q l fun hf => hf.elim) hc.2

end Runs

end TransportHost

/-- The read of a link that is in the realm, the last it handed over. -/
def Side.inFlight (s : Side) : List Bytes :=
  if s.inRealm then (s.handed.getLast?.map (·.bytes)).toList else []

/-- The reads the driver has in custody for a link. -/
def Side.custody (s : Side) : List Bytes := s.inFlight ++ s.held

namespace TransportHost

variable {h : TransportHost}

/-- The driver's inbound counters: between its turns they are the number and the bytes of the
reads in the realm and of those held, over every link there was; a link that left the table
has none once its read in flight has settled. -/
structure Custody (h : TransportHost) : Prop where
  slices : h.Rest → h.inboundReadSlices =
    ((List.range h.nextLinkId).map fun k => ((h.side k).custody.length : Int)).sum
  bytes : h.Rest → h.inboundReadBytes =
    ((List.range h.nextLinkId).map fun k =>
      ((h.side k).custody.map fun bytes => (bytes.length : Int)).sum).sum
  nonneg : 0 ≤ h.inboundReadSlices ∧ 0 ≤ h.inboundReadBytes
  gone : h.Rest → ∀ k, k ∉ h.links → (h.side k).inRealm = false → (h.side k).custody = []
  zero : h.Rest → h.links = [] → (∀ k, (h.side k).inRealm = false) →
    h.inboundReadSlices = 0 ∧ h.inboundReadBytes = 0

/-- Between two turns a link's share is what is in its custody. -/
theorem account_at_rest (b : h.Budget) (q : h.Fit) (hs : h.stack = []) (m : Measure) (k : Nat) :
    h.account m k = ((h.side k).custody.map fun bytes => m.weight bytes.length).sum := by
  obtain ⟨hops, hiff⟩ := q.at_rest hs k
  have hlag : lagging m (h.ops k) = 0 := by
    rw [hops]
    rfl
  simp only [account, hlag, Int.sub_zero, Side.charge, Side.custody, Side.inFlight,
    List.map_append, List.sum_append]
  congr 1
  by_cases hr : (h.side k).inRealm = true
  · obtain ⟨x, hx, hw⟩ := (b.accounted k).flight hr
    simp [hr, hx, hw]
  · have hn : ¬ 0 ≤ (h.side k).activeBytes := fun ha => hr (hiff.2 ha)
    simp [hr, hn]

theorem Budget.custody (b : h.Budget) (q : h.Fit) : h.Custody := by
  have gone : h.Rest → ∀ k, k ∉ h.links → (h.side k).inRealm = false →
      (h.side k).custody = [] := by
    intro hr k hk hno
    obtain ⟨hops, hiff⟩ := q.at_rest hr.1 k
    have hheld : (h.side k).held = [] := by
      rcases (b.accounted k).gone hk with h1 | h1 | h1
      · exact h1
      · rw [hiff.2 h1] at hno
        cases hno
      · rw [hops] at h1
        cases h1
    simp [Side.custody, Side.inFlight, hno, hheld]
  have total : h.Rest → ∀ m, h.counter m = ((List.range h.nextLinkId).map fun k =>
      ((h.side k).custody.map fun bytes => m.weight bytes.length).sum).sum := by
    intro hr m
    rw [b.total m]
    congr 1
    exact List.map_congr_left fun k _ => account_at_rest b q hr.1 m k
  have nonneg : ∀ m, 0 ≤ h.counter m := by
    intro m
    rw [b.total m]
    apply List.sum_nonneg
    intro x hx
    obtain ⟨k, -, rfl⟩ := List.mem_map.1 hx
    exact account_nonneg b q m k
  have zero : h.Rest → h.links = [] → (∀ k, (h.side k).inRealm = false) →
      ∀ m, h.counter m = 0 := by
    intro hr hl hno m
    rw [total hr m]
    apply List.sum_eq_zero
    intro x hx
    obtain ⟨k, -, rfl⟩ := List.mem_map.1 hx
    rw [gone hr k (by simp [hl]) (hno k)]
    rfl
  constructor
  · intro hr
    have := total hr .slices
    simpa [counter, Measure.weight] using this
  · exact fun hr => total hr .bytes
  · exact ⟨nonneg .slices, nonneg .bytes⟩
  · exact gone
  · exact fun hr hl hno => ⟨zero hr hl hno .slices, zero hr hl hno .bytes⟩

/-- Where no link goes with reads in hand, the budget is what is in custody. -/
theorem run_custody (maxRawLinks : Nat) (labels : List Label)
    (hc : (new maxRawLinks).Calmly labels) : ((new maxRawLinks).run labels).Custody :=
  let ⟨b, q⟩ := (new_budget maxRawLinks).run (new_kept False maxRawLinks) labels hc
  b.custody q

/-- A paused link with two reads held, which its peer closes. -/
def remoteRun : List Label :=
  [.activate, .register false, .pause 1 true, .onData 1 [7], .onData 1 [8, 9], .onClose 1, .go,
    .go, .go, .go, .go]

theorem remoteRun_custody :
    ((new 4).run remoteRun).Custody ∧ ((new 4).run remoteRun).links = [] ∧
      ((new 4).run remoteRun).inboundReadSlices = 0 :=
  ⟨run_custody 4 remoteRun (by decide), by decide⟩

/-- The same link closed by the occupant, with an adapter that does not call back. -/
def localRun : List Label :=
  [.activate, .register false, .pause 1 true, .onData 1 [7], .close 1, .back .returned,
    .microtask]

/-- The link is gone, and its read stays charged. -/
theorem localRun_leaks :
    ¬ ((new 4).run localRun).Custody ∧ ((new 4).run localRun).links = [] ∧
      ((new 4).run localRun).inboundReadSlices = 1 := by
  refine ⟨fun hc => ?_, by decide⟩
  have hr : ((new 4).run localRun).Rest := by decide
  have hheld : (((new 4).run localRun).side 1).custody ≠ [] := by decide
  exact hheld (hc.gone hr 1 (by decide) (by decide))

end TransportHost

end Inbound

end SeedTransport
