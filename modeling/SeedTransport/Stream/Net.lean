import Mathlib
import SeedTransport.Stream.Flow

set_option autoImplicit false

namespace SeedTransport.Stream

/-! Two streams joined by a network that loses, repeats, delays and reorders packets. -/

open Ledger (Step Steps Quiet)

/-- What the realm asks of a stream, apart from taking in a packet. -/
inductive Call where
  | start
  | send (bytes : Bytes)
  | reader
  | readDone
  | turn
  | wake (t : ℚ)
  | repath (rttMs : ℚ)
  | close (graceful : Bool)
  | cut

namespace UdpStream

def call (s : UdpStream) (now : ℚ) : Call → UdpStream
  | .start => s.start now
  | .send bytes => (s.send now bytes).1
  | .reader => s.reader now
  | .readDone => s.readDone now
  | .turn => s.turn now
  | .wake t => s.onWake now t
  | .repath rttMs => s.repath now rttMs
  | .close graceful => s.close now graceful
  | .cut => s.endStream now .cut

theorem call_steps (s : UdpStream) (now : ℚ) (c : Call) (hl : s.ledger.TxFair) :
    Steps none s.ledger (s.call now c).ledger := by
  cases c with
  | start => exact start_steps none s now hl
  | send bytes => exact send_steps s now bytes hl
  | reader => exact deliver_steps none { s with read := true } now
  | readDone => exact deliver_steps none { s with reading := false } now
  | turn => exact turn_steps none s now
  | wake t => exact onWake_steps none s now t hl
  | repath rttMs => exact repath_steps none s now rttMs hl
  | close graceful => exact close_steps none s now graceful hl
  | cut => exact endStream_steps none s now .cut (fun h => by cases h) (fun h => by cases h)

end UdpStream

/-- Without a DATA packet nothing comes to stand where the receiver stands. -/
theorem Ledger.Step.quiet {input : Option Packet} {l l' : Ledger} (hs : Step input l l')
    (hi : ∀ pn o floor bs, input ≠ some (.data pn o floor bs)) (hq : l.Quiet) : l'.Quiet := by
  cases hs with
  | arriveInOrder pn o floor bs hg h => exact absurd h (hi pn o floor bs)
  | arriveAhead pn o floor bs hg h => exact absurd h (hi pn o floor bs)
  | arriveStale pn o floor bs hg h => exact absurd h (hi pn o floor bs)
  | drain next hg ha =>
    have : l.ahead.get l.inOrder = none := hq
    rw [this] at ha
    cases ha
  | clear => rfl
  | hand n hg hn =>
    change l.ahead.get (l.taken + n + (l.held.take n).2.bytes) = none
    rw [Pieces.bytes_take, show l.taken + n + (l.held.bytes - n) = l.inOrder by
      unfold Ledger.inOrder; omega]
    exact hq
  | _ => exact hq

theorem Ledger.Steps.quiet {input : Option Packet} {l l' : Ledger} (hs : Steps input l l')
    (hi : ∀ pn o floor bs, input ≠ some (.data pn o floor bs)) (hq : l.Quiet) : l'.Quiet := by
  induction hs with
  | refl => exact hq
  | tail _ hstep ih => exact hstep.quiet hi ih

namespace Receiving

/-- `ahead.size` looks are enough. -/
theorem drainAhead_quiet (n : Nat) (rx : Receiving) (hn : rx.ahead.size ≤ n) :
    (rx.drainAhead n).ahead.get (rx.drainAhead n).inOrder = none := by
  induction n generalizing rx with
  | zero => exact (OrdMap.size_eq_zero _).mp (Nat.le_zero.mp hn) _
  | succ n ih =>
    unfold drainAhead
    split
    · assumption
    · rename_i next hnext
      refine ih _ ?_
      have h := rx.ahead.size_delete hnext
      change (rx.ahead.delete rx.inOrder).size ≤ n
      omega

theorem store_quiet (rx : Receiving) (o : Nat) (bs : Bytes)
    (hq : rx.ahead.get rx.inOrder = none) :
    (rx.store o bs).ahead.get (rx.store o bs).inOrder = none := by
  unfold store
  dsimp only
  split
  · split
    · exact OrdMap.get_empty _
    · exact drainAhead_quiet _ _ (Nat.le_refl _)
  · split
    · rename_i h
      have hlt : rx.inOrder < o := h.1
      change (rx.ahead.set o bs).get rx.inOrder = none
      rw [OrdMap.get_set, if_neg (Nat.ne_of_lt hlt)]
      exact hq
    · exact hq

end Receiving

namespace UdpStream

theorem onChunk_quiet (s : UdpStream) (now : ℚ) (pn o floor : Nat) (bs : Bytes)
    (hq : s.ledger.Quiet) : (s.onChunk now pn o floor bs).ledger.Quiet := by
  unfold onChunk
  split
  · exact hq
  · obtain ⟨ps, -, he⟩ := received_ledger s now pn
    dsimp only
    generalize s.received now pn = s₁ at he ⊢
    have hq₁ : s₁.ledger.Quiet := by
      rw [he]
      exact hq
    have hstore := Receiving.store_quiet { s₁.rx with ranges := dropBelow floor s₁.rx.ranges } o bs hq₁
    split
    · unfold fail
      split <;> exact hstore
    · exact hstore

theorem receive_quiet (s : UdpStream) (now : ℚ) (p : Bytes) (hl : s.ledger.TxFair)
    (hq : s.ledger.Quiet) : (s.receive now p).ledger.Quiet := by
  by_cases hd : ∃ pn o floor bs, decode p = some (.data pn o floor bs)
  · obtain ⟨pn, o, floor, bs, hd⟩ := hd
    unfold receive
    split
    · exact hq
    · rw [hd]
      exact onChunk_quiet { s with lastHeard := now } now pn o floor bs hq
  · have hs := receive_steps s now p hl hq
    refine hs.quiet ?_ hq
    intro pn o floor bs h
    exact hd ⟨pn, o, floor, bs, h⟩

end UdpStream

/-- What holds of a stream between calls, whatever it has been given. -/
structure Sane (s : UdpStream) : Prop where
  fair : s.ledger.Fair
  quiet : s.ledger.Quiet

theorem Sane.init : Sane {} := ⟨Ledger.Fair.init, rfl⟩

theorem Sane.call {s : UdpStream} (h : Sane s) (now : ℚ) (c : Call) : Sane (s.call now c) := by
  have hs := s.call_steps now c h.fair.tx
  exact ⟨h.fair.steps hs, hs.quiet (fun _ _ _ _ h => nomatch h) h.quiet⟩

theorem Sane.receive {s : UdpStream} (h : Sane s) (now : ℚ) (p : Bytes) :
    Sane (s.receive now p) :=
  ⟨h.fair.steps (s.receive_steps now p h.fair.tx h.quiet),
    s.receive_quiet now p h.fair.tx h.quiet⟩

/-- Two ends. -/
structure Net where
  a : UdpStream := {}
  b : UdpStream := {}

namespace Net

def swap (N : Net) : Net := { a := N.b, b := N.a }

/-- A call at either end at any clock reading, or a packet the other end once sent, under any
token. That a packet may be taken any number of times, in any order or never is all the
network does. -/
inductive Step (N : Net) : Net → Prop where
  | callA (now : ℚ) (c : Call) : Step N { N with a := N.a.call now c }
  | callB (now : ℚ) (c : Call) : Step N { N with b := N.b.call now c }
  | deliverA (now : ℚ) (token : Bytes) (p : Packet) (hp : p ∈ N.b.emitted)
      (ht : token.length = 8) :
      Step N { N with a := N.a.receive now (stamp token (encode p)) }
  | deliverB (now : ℚ) (token : Bytes) (p : Packet) (hp : p ∈ N.a.emitted)
      (ht : token.length = 8) :
      Step N { N with b := N.b.receive now (stamp token (encode p)) }

abbrev Reachable (N : Net) : Prop := Relation.ReflTransGen Step {} N

theorem Step.swap {N M : Net} (h : Step N M) : Step N.swap M.swap := by
  cases h with
  | callA now c => exact .callB now c
  | callB now c => exact .callA now c
  | deliverA now token p hp ht => exact .deliverB now token p hp ht
  | deliverB now token p hp ht => exact .deliverA now token p hp ht

theorem Reachable.swap {N : Net} (h : Reachable N) : Reachable N.swap := by
  induction h with
  | refl => exact .refl
  | tail _ hstep ih => exact ih.tail hstep.swap

theorem Reachable.sane {N : Net} (h : Reachable N) : Sane N.a ∧ Sane N.b := by
  induction h with
  | refl => exact ⟨Sane.init, Sane.init⟩
  | tail _ hstep ih =>
    cases hstep with
    | callA now c => exact ⟨ih.1.call now c, ih.2⟩
    | callB now c => exact ⟨ih.1, ih.2.call now c⟩
    | deliverA now token p hp ht => exact ⟨ih.1.receive now _, ih.2⟩
    | deliverB now token p hp ht => exact ⟨ih.1, ih.2.receive now _⟩

/-- A step by name: the packet delivered is the `i`th its sender sent, and none if there is
no such. -/
inductive Event where
  | callA (now : ℚ) (c : Call)
  | callB (now : ℚ) (c : Call)
  | deliverA (now : ℚ) (i : Nat)
  | deliverB (now : ℚ) (i : Nat)

def deliver (s : UdpStream) (now : ℚ) (p : Option Packet) : UdpStream :=
  match p with
  | some p => s.receive now (stamp (List.replicate 8 0) (encode p))
  | none => s

def event (N : Net) : Event → Net
  | .callA now c => { N with a := N.a.call now c }
  | .callB now c => { N with b := N.b.call now c }
  | .deliverA now i => { N with a := deliver N.a now N.b.emitted[i]? }
  | .deliverB now i => { N with b := deliver N.b now N.a.emitted[i]? }

def run (N : Net) (es : List Event) : Net := es.foldl event N

theorem Reachable.event {N : Net} (h : Reachable N) (e : Event) : Reachable (N.event e) := by
  cases e with
  | callA now c => exact h.tail (.callA now c)
  | callB now c => exact h.tail (.callB now c)
  | deliverA now i =>
    simp only [Net.event]
    cases hp : N.b.emitted[i]? with
    | none => exact h
    | some p =>
      exact h.tail (.deliverA now (List.replicate 8 0) p (List.mem_of_getElem? hp) rfl)
  | deliverB now i =>
    simp only [Net.event]
    cases hp : N.a.emitted[i]? with
    | none => exact h
    | some p =>
      exact h.tail (.deliverB now (List.replicate 8 0) p (List.mem_of_getElem? hp) rfl)

theorem Reachable.run {N : Net} (h : Reachable N) (es : List Event) : Reachable (N.run es) := by
  induction es generalizing N with
  | nil => exact h
  | cons e es ih => exact ih (h.event e)

/-- The direction from `a` to `b`. -/
def flow (N : Net) : Delivery.Flow UInt8 := N.a.ledger.flow N.b.ledger

/-- The fields of the wire hold what `a` puts in them: its offsets, and if `honest` is asked
for, its packet numbers. -/
structure Fits (honest : Prop) (N : Net) : Prop where
  stream : N.a.accepted.flatten.length < 2 ^ 48
  numbers : honest → N.a.tx.nextPn ≤ 2 ^ 48

theorem Fits.before {honest : Prop} {N M : Net} (hM : Fits honest M) (hN : Reachable N)
    (h : Step N M) : Fits honest N := by
  have key : ∀ {input : Option Packet} {s : UdpStream},
      Ledger.Steps input N.a.ledger s.ledger → s.accepted.flatten.length < 2 ^ 48 →
      (honest → s.tx.nextPn ≤ 2 ^ 48) → Fits honest N := by
    intro input s hs h₁ h₂
    obtain ⟨hpn, -, hacc, -⟩ := hs.grows
    obtain ⟨rest, hrest⟩ := hacc
    refine ⟨?_, fun hh => Nat.le_trans hpn (h₂ hh)⟩
    change N.a.accepted ++ rest = s.accepted at hrest
    rw [← hrest, List.flatten_append, List.length_append] at h₁
    exact Nat.lt_of_le_of_lt (Nat.le_add_right _ _) h₁
  obtain ⟨ha, -⟩ := hN.sane
  cases h with
  | callA now c => exact key (N.a.call_steps now c ha.fair.tx) hM.stream hM.numbers
  | callB now c => exact ⟨hM.stream, hM.numbers⟩
  | deliverA now token p hp ht =>
    exact key (N.a.receive_steps now _ ha.fair.tx ha.quiet) hM.stream hM.numbers
  | deliverB now token p hp ht => exact ⟨hM.stream, hM.numbers⟩

theorem cut_eq_data {p : Packet} {k o floor : Nat} {bs : Bytes} (h : p.cut = .data k o floor bs) :
    ∃ pn o' floor', p = .data pn o' floor' bs ∧ k = pn % 2 ^ 48 ∧ o = o' % 2 ^ 48 := by
  cases p with
  | data pn o' floor' bs' =>
    cases h
    exact ⟨pn, o', floor', rfl, rfl, rfl⟩
  | ack | probe | close => cases h

theorem cut_eq_probe {p : Packet} {k : Nat} (h : p.cut = .probe k) :
    ∃ pn, p = .probe pn ∧ k = pn % 2 ^ 48 := by
  cases p with
  | probe pn =>
    cases h
    exact ⟨pn, rfl, rfl⟩
  | ack | data | close => cases h

theorem cut_eq_ack {p : Packet} {credit delay : Nat} {ranges : List (Nat × Nat)}
    (h : p.cut = .ack credit delay ranges) : ∃ credit' delay' ranges',
      p = .ack credit' delay' ranges' ∧
      ranges = ranges'.map (fun r => (r.1 % 2 ^ 48, r.2 % 2 ^ 48)) := by
  cases p with
  | ack credit' delay' ranges' =>
    cases h
    exact ⟨credit', delay', ranges', rfl, rfl⟩
  | probe | data | close => cases h

/-- An ack read back names what it was written to name, if every number it was written with
fits its field. -/
theorem names_cut {ranges : List (Nat × Nat)} {pn : Nat}
    (hfit : ∀ r ∈ ranges, r.1 < 2 ^ 48 ∧ r.2 < 2 ^ 48)
    (h : names (ranges.map (fun r => (r.1 % 2 ^ 48, r.2 % 2 ^ 48))) pn = true) :
    names ranges pn = true := by
  have hmap : ranges.map (fun r => (r.1 % 2 ^ 48, r.2 % 2 ^ 48)) = ranges := by
    rw [List.map_congr_left (g := id)]
    · exact List.map_id _
    · intro r hr
      obtain ⟨h₁, h₂⟩ := hfit r hr
      rw [Nat.mod_eq_of_lt h₁, Nat.mod_eq_of_lt h₂]
      rfl
  rwa [hmap] at h

theorem Step.flow {honest : Prop} {N M : Net} (hN : Reachable N) (h : Step N M)
    (hfit : Fits honest N) (hS : N.flow.Safe) (hG : honest → N.flow.Sound) :
    Ledger.FlowSteps honest N.flow M.flow := by
  obtain ⟨ha, hb⟩ := hN.sane
  have sender : ∀ {input : Option Packet} {s : UdpStream},
      Ledger.Steps input N.a.ledger s.ledger →
      (honest → ∀ credit delay ranges, input = some (.ack credit delay ranges) →
        ∀ pn, names ranges pn = true → N.flow.got pn) →
      Ledger.FlowSteps honest N.flow (s.ledger.flow N.b.ledger) := by
    intro input s hs hack
    exact hs.sender ha.fair.tx hack
  have receiver : ∀ {input : Option Packet} {s : UdpStream},
      Ledger.Steps input N.b.ledger s.ledger →
      (∀ k o floor bs, input = some (.data k o floor bs) →
        ∃ pn, N.flow.sent pn o bs ∧ (honest → k = pn)) →
      (∀ k, input = some (.probe k) → honest →
        k < N.a.tx.nextPn ∧ ∀ o bs, ¬ N.flow.sent k o bs) →
      Ledger.FlowSteps honest N.flow (N.a.ledger.flow s.ledger) := by
    intro input s hs hdata hprobe
    exact hs.receiver hb.fair.rx hdata hprobe
  cases h with
  | callA now c => exact sender (N.a.call_steps now c ha.fair.tx) (fun _ _ _ _ h => nomatch h)
  | callB now c =>
    exact receiver (N.b.call_steps now c hb.fair.tx) (fun _ _ _ _ h => nomatch h)
      (fun _ h => nomatch h)
  | deliverA now token p hp ht =>
    have hdec := decode_stamp_encode token ht p (hb.fair.wire.sendable p hp)
    have hs := N.a.receive_steps now (stamp token (encode p)) ha.fair.tx ha.quiet
    rw [hdec] at hs
    refine sender hs ?_
    intro hh credit delay ranges hi pn hn
    obtain ⟨credit', delay', ranges', rfl, rfl⟩ := cut_eq_ack (Option.some.inj hi)
    have hgot : ∀ k, names ranges' k = true → N.flow.got k := fun k hk =>
      Or.inr ⟨credit', delay', ranges', hp, hk⟩
    refine hgot pn (names_cut ?_ hn)
    intro r hr
    have hle := hb.fair.wire.acks credit' delay' ranges' hp r hr
    have hlt : ∀ k, N.flow.got k → k < 2 ^ 48 := fun k hk =>
      Nat.lt_of_lt_of_le ((hG hh).got_lt k hk) (hfit.numbers hh)
    exact ⟨hlt _ (hgot _ (Sending.names_of_mem hr (Nat.le_refl _) hle)),
      hlt _ (hgot _ (Sending.names_of_mem hr hle (Nat.le_refl _)))⟩
  | deliverB now token p hp ht =>
    have hdec := decode_stamp_encode token ht p (ha.fair.wire.sendable p hp)
    have hs := N.b.receive_steps now (stamp token (encode p)) hb.fair.tx hb.quiet
    rw [hdec] at hs
    refine receiver hs ?_ ?_
    · intro k o floor bs hi
      obtain ⟨pn, o', floor', rfl, rfl, rfl⟩ := cut_eq_data (Option.some.inj hi)
      have hsent : N.flow.sent pn o' bs := ⟨floor', hp⟩
      obtain ⟨-, hend, -⟩ := hS.packet pn o' bs hsent
      have hbound : N.flow.next ≤ N.a.accepted.flatten.length := hS.bound
      have hstream := hfit.stream
      refine ⟨pn, ?_, ?_⟩
      · rw [Nat.mod_eq_of_lt (by omega)]
        exact hsent
      · intro hh
        exact Nat.mod_eq_of_lt (Nat.lt_of_lt_of_le ((hG hh).numbered pn o' bs hsent)
          (hfit.numbers hh))
    · intro k hi hh
      obtain ⟨pn, rfl, rfl⟩ := cut_eq_probe (Option.some.inj hi)
      obtain ⟨hlt, hno⟩ := ha.fair.wire.probed pn hp
      have hpn : pn < 2 ^ 48 := Nat.lt_of_lt_of_le hlt (hfit.numbers hh)
      rw [Nat.mod_eq_of_lt hpn]
      refine ⟨hlt, ?_⟩
      rintro o bs ⟨floor, hm⟩
      exact hno o floor bs hm

end Net

end SeedTransport.Stream
