import Mathlib
import SeedTransport.Stream.Guarantees

set_option autoImplicit false

namespace SeedTransport.Stream

/-! A graceful close, from the wait for the last ack to the CLOSE at the peer. -/

namespace Net

/-- Once `a` has closed with nothing left to be acked and `b` has stopped on its CLOSE, `b`'s
reader has had all that `a` was given to send. -/
def LosesNothing (a b : UdpStream) : Prop :=
  a.cause = some .drained → b.cause = some .closeHeard →
    b.handed.flatten = a.accepted.flatten ∧ b.rx.held.bytes = 0

/-- A step in which no end takes a CLOSE while bytes wait for its reader. -/
inductive CalmStep (N : Net) : Net → Prop where
  | callA (now : ℚ) (c : Call) : CalmStep N { N with a := N.a.call now c }
  | callB (now : ℚ) (c : Call) : CalmStep N { N with b := N.b.call now c }
  | deliverA (now : ℚ) (token : Bytes) (p : Packet) (hp : p ∈ N.b.emitted)
      (ht : token.length = 8) (hc : p = .close → N.a.rx.held.bytes = 0) :
      CalmStep N { N with a := N.a.receive now (stamp token (encode p)) }
  | deliverB (now : ℚ) (token : Bytes) (p : Packet) (hp : p ∈ N.a.emitted)
      (ht : token.length = 8) (hc : p = .close → N.b.rx.held.bytes = 0) :
      CalmStep N { N with b := N.b.receive now (stamp token (encode p)) }

/-- The states of runs whose steps are all calm. -/
abbrev Calm (N : Net) : Prop := Relation.ReflTransGen CalmStep {} N

theorem CalmStep.step {N M : Net} (h : CalmStep N M) : Step N M := by
  cases h with
  | callA now c => exact .callA now c
  | callB now c => exact .callB now c
  | deliverA now token p hp ht hc => exact .deliverA now token p hp ht
  | deliverB now token p hp ht hc => exact .deliverB now token p hp ht

theorem Calm.reachable {N : Net} (h : Calm N) : Reachable N := by
  induction h with
  | refl => exact .refl
  | tail _ hstep ih => exact ih.tail hstep.step

theorem CalmStep.swap {N M : Net} (h : CalmStep N M) : CalmStep N.swap M.swap := by
  cases h with
  | callA now c => exact .callB now c
  | callB now c => exact .callA now c
  | deliverA now token p hp ht hc => exact .deliverB now token p hp ht hc
  | deliverB now token p hp ht hc => exact .deliverA now token p hp ht hc

theorem Calm.swap {N : Net} (h : Calm N) : Calm N.swap := by
  induction h with
  | refl => exact .refl
  | tail _ hstep ih => exact ih.tail hstep.swap

/-- What `b` has heard a CLOSE of: an end that is gone, and whose stream, if it drained, has
all been read. -/
def Heard (a b : UdpStream) : Prop :=
  b.cause = some .closeHeard → a.gone = true ∧
    (a.cause = some .drained → b.handed.flatten = a.accepted.flatten ∧ b.rx.held.bytes = 0)

theorem Heard.sender {a b a' : UdpStream} {input : Option Packet} (h : Heard a b)
    (hs : Ledger.Steps input a.ledger a'.ledger) : Heard a' b := by
  intro hb
  obtain ⟨hg, hd⟩ := h hb
  obtain ⟨hg', hcause, hacc, -, -⟩ := hs.frozen hg
  refine ⟨hg', ?_⟩
  intro hc
  change a'.cause = a.cause at hcause
  change a'.accepted = a.accepted at hacc
  rw [hacc]
  exact hd (hcause ▸ hc)

/-- A cause that `b` comes to in a step is not a CLOSE unless the step takes one. -/
theorem cause_of_stop {input : Option Packet} {l l' : Ledger} (hs : Ledger.Steps input l l')
    (hc : l'.cause = some .closeHeard) : l.cause = some .closeHeard ∨ input = some .close := by
  induction hs with
  | refl => exact Or.inl hc
  | tail _ hstep ih =>
    cases hstep with
    | stop why closes hg hcl hh hd => exact Or.inr (hh (Option.some.inj hc))
    | _ => exact ih hc

theorem Heard.receiver {a b b' : UdpStream} {input : Option Packet} (h : Heard a b)
    (hb : b.ledger.Fair) (hs : Ledger.Steps input b.ledger b'.ledger)
    (hi : b.gone = false → input ≠ some .close) : Heard a b' := by
  intro hc
  cases hg : b.gone with
  | true =>
    obtain ⟨-, hcause, -, hhanded, hheld⟩ := hs.frozen hg
    change b'.cause = b.cause at hcause
    change b'.handed = b.handed at hhanded
    change b'.rx.held = b.rx.held at hheld
    rw [hhanded, hheld]
    exact h (hcause ▸ hc)
  | false =>
    rcases cause_of_stop hs hc with hold | hclose
    · rw [hb.fate.caused hg] at hold
      cases hold
    · exact absurd hclose (hi hg)

theorem receive_close {b : UdpStream} (hg : b.gone = false) (now : ℚ) {bs : Bytes}
    (hd : decode bs = some .close) : b.receive now bs =
      { b with lastHeard := now, gone := true, cause := some .closeHeard } := by
  unfold UdpStream.receive
  rw [if_neg (by rw [hg]; decide), hd]
  dsimp only
  unfold UdpStream.fail
  rw [if_neg (by rw [hg]; decide)]

theorem Calm.heard {N : Net} (h : Calm N) (hs : N.a.accepted.flatten.length < 2 ^ 48)
    (hn : N.a.tx.nextPn ≤ 2 ^ 48) : Heard N.a N.b := by
  induction h with
  | refl => exact fun hb => by cases hb
  | tail hrun hstep ih =>
    rename_i N M
    have hreach := Calm.reachable hrun
    have hfit : Fits True N := Fits.before ⟨hs, fun _ => hn⟩ hreach hstep.step
    have hold := ih hfit.stream (hfit.numbers trivial)
    obtain ⟨ha, hb⟩ := hreach.sane
    cases hstep with
    | callA now c => exact hold.sender (N.a.call_steps now c ha.fair.tx)
    | callB now c =>
      exact hold.receiver hb.fair (N.b.call_steps now c hb.fair.tx) (fun _ h => by cases h)
    | deliverA now token p hp ht hc =>
      exact hold.sender (N.a.receive_steps now _ ha.fair.tx ha.quiet)
    | deliverB now token p hp ht hc =>
      have hdec := decode_stamp_encode token ht p (ha.fair.wire.sendable p hp)
      have hsteps := N.b.receive_steps now (stamp token (encode p)) hb.fair.tx hb.quiet
      rw [hdec] at hsteps
      by_cases hclose : N.b.gone = false ∧ p = .close
      · -- the CLOSE itself: `a` is gone, and drained only if nothing is missing here
        obtain ⟨hg, rfl⟩ := hclose
        have hheld := hc rfl
        have hreceive := receive_close hg now hdec
        dsimp only
        rw [hreceive]
        intro _
        refine ⟨ha.fair.fate.closed hp, ?_⟩
        intro hdrained
        have harrived := hreach.arrived hfit (ha.fair.fate.drained hdrained)
        rw [List.length_eq_zero_iff.mp hheld, List.append_nil] at harrived
        exact ⟨harrived, hheld⟩
      · refine hold.receiver hb.fair hsteps ?_
        intro hg hcut
        refine hclose ⟨hg, ?_⟩
        cases p with
        | close => rfl
        | data | ack | probe => cases Option.some.inj hcut

/-- In runs where no end takes a CLOSE while bytes wait for its reader, a graceful close that
waited for the last ack loses nothing. -/
theorem calm_close_loses_nothing {N : Net} (h : Calm N) :
    (N.a.accepted.flatten.length < 2 ^ 48 → N.a.tx.nextPn ≤ 2 ^ 48 → LosesNothing N.a N.b) ∧
      (N.b.accepted.flatten.length < 2 ^ 48 → N.b.tx.nextPn ≤ 2 ^ 48 → LosesNothing N.b N.a) :=
  ⟨fun hs hn hd hc => (h.heard hs hn hc).2 hd, fun hs hn hd hc => (h.swap.heard hs hn hc).2 hd⟩

/-- Whether the step named is calm. -/
def calm (N : Net) : Event → Bool
  | .callA _ _ => true
  | .callB _ _ => true
  | .deliverA _ i => decide (N.b.emitted[i]? = some .close → N.a.rx.held.bytes = 0)
  | .deliverB _ i => decide (N.a.emitted[i]? = some .close → N.b.rx.held.bytes = 0)

def calmRun (N : Net) : List Event → Bool
  | [] => true
  | e :: es => N.calm e && (N.event e).calmRun es

theorem Calm.event {N : Net} (h : Calm N) (e : Event) (hc : N.calm e = true) :
    Calm (N.event e) := by
  cases e with
  | callA now c => exact h.tail (.callA now c)
  | callB now c => exact h.tail (.callB now c)
  | deliverA now i =>
    simp only [calm, decide_eq_true_eq] at hc
    simp only [Net.event]
    cases hp : N.b.emitted[i]? with
    | none => exact h
    | some p =>
      exact h.tail (.deliverA now (List.replicate 8 0) p (List.mem_of_getElem? hp) rfl
        (fun e => hc (e ▸ hp)))
  | deliverB now i =>
    simp only [calm, decide_eq_true_eq] at hc
    simp only [Net.event]
    cases hp : N.a.emitted[i]? with
    | none => exact h
    | some p =>
      exact h.tail (.deliverB now (List.replicate 8 0) p (List.mem_of_getElem? hp) rfl
        (fun e => hc (e ▸ hp)))

theorem Calm.run {N : Net} (h : Calm N) (es : List Event) (hc : N.calmRun es = true) :
    Calm (N.run es) := by
  induction es generalizing N with
  | nil => exact h
  | cons e es ih =>
    simp only [calmRun, Bool.and_eq_true] at hc
    exact ih (h.event e hc.1) hc.2

/-- Two bytes sent, read and acked, then a close. -/
def readThenClosed : List Event :=
  [.callA 0 .start, .callB 0 .start, .callB 0 .reader, .callA 0 (.send [1, 2]), .deliverB 1 0,
    .callB 1 .turn, .callB 1 .readDone, .deliverA 2 0, .callA 3 (.close true), .deliverB 4 2]

theorem calm_close_loses_nothing_read :
    (run {} readThenClosed).a.cause = some .drained ∧
      (run {} readThenClosed).b.cause = some .closeHeard ∧
      (run {} readThenClosed).b.handed.flatten = (run {} readThenClosed).a.accepted.flatten :=
  ⟨by decide +kernel, by decide +kernel,
    ((calm_close_loses_nothing (Calm.run .refl readThenClosed (by decide +kernel))).1
      (by decide +kernel) (by decide +kernel) (by decide +kernel) (by decide +kernel)).1⟩

/-- Two bytes, the reader still decoding the first when the CLOSE comes. -/
def closedMidRead : List Event :=
  [.callA 0 .start, .callB 0 .start, .callB 0 .reader, .callA 0 (.send [1]), .deliverB 1 0,
    .callB 1 .turn, .deliverA 2 0, .callA 3 (.send [2]), .callA 3 (.close true), .deliverB 4 2,
    .callB 4 .turn, .deliverA 5 1, .deliverB 6 3, .callB 7 .readDone]

/-- The second byte was acked, waits for the reader and is lost with the CLOSE. -/
theorem close_loses_held : Reachable (run {} closedMidRead) ∧
    (run {} closedMidRead).a.cause = some .drained ∧
    (run {} closedMidRead).b.cause = some .closeHeard ∧
    (run {} closedMidRead).b.rx.held.bytes = 1 ∧
    ¬ LosesNothing (run {} closedMidRead).a (run {} closedMidRead).b := by
  have hcause : (run {} closedMidRead).a.cause = some .drained ∧
      (run {} closedMidRead).b.cause = some .closeHeard ∧
      (run {} closedMidRead).b.rx.held.bytes = 1 := by decide +kernel
  obtain ⟨ha, hb, hheld⟩ := hcause
  refine ⟨Reachable.run .refl _, ha, hb, hheld, ?_⟩
  intro h
  have := (h ha hb).2
  omega

end Net

end SeedTransport.Stream
