import Mathlib
import SeedTransport.Stream.Model

set_option autoImplicit false

namespace SeedTransport.Stream

/-! What delivery depends on at one end, apart from clocks and rates, and the few ways it
ever changes. Every operation of the stream is a sequence of these steps (`Refine`). -/

/-- The books of one end. -/
structure Ledger where
  accepted : List Bytes
  unsent : Pieces
  written : Nat
  nextOffset : Nat
  chunks : OrdMap Nat Bytes
  sentOffsets : List Nat
  sentHead : Nat
  lost : OrdMap Nat Unit
  /-- The chunk a flush has taken up and not yet sent: for that moment it is neither lost
  nor in flight. -/
  picked : Option Nat
  inFlight : OrdMap Nat Flight
  bytesInFlight : Int
  nextPn : Nat
  window : ℚ
  packetBytes : Nat
  emitted : List Packet
  handed : List Bytes
  taken : Nat
  held : Pieces
  ahead : OrdMap Nat Bytes
  furthest : Nat
  ranges : List (Nat × Nat)
  gone : Bool
  cause : Option Cause

def UdpStream.ledger (s : UdpStream) : Ledger where
  accepted := s.accepted
  unsent := s.tx.unsent
  written := s.tx.written
  nextOffset := s.tx.nextOffset
  chunks := s.tx.chunks
  sentOffsets := s.tx.sentOffsets
  sentHead := s.tx.sentHead
  lost := s.tx.lost
  picked := none
  inFlight := s.tx.inFlight
  bytesInFlight := s.tx.bytesInFlight
  nextPn := s.tx.nextPn
  window := s.tx.window
  packetBytes := s.tx.packetBytes
  emitted := s.emitted
  handed := s.handed
  taken := s.rx.taken
  held := s.rx.held
  ahead := s.rx.ahead
  furthest := s.rx.furthest
  ranges := s.rx.ranges
  gone := s.gone
  cause := s.cause

namespace Ledger

def inOrder (l : Ledger) : Nat := l.taken + l.held.bytes

def stream (l : Ledger) : Bytes := l.accepted.flatten

/-- Chunk offsets that `oldestChunk` still looks at. -/
def listed (l : Ledger) : List Nat := l.sentOffsets.drop l.sentHead

/-- Everything given to send has been sent and acked. -/
def Drained (l : Ledger) : Prop := (∀ o, l.chunks.get o = none) ∧ l.nextOffset = l.written

def Sized (packetBytes : Nat) : Prop := packetBytes = basePacket ∨ packetBytes = maxPacket

/-- One change to the books, on the way through an operation that was given packet `input`.
A stream that is gone takes nothing more to send, hands nothing more over and frees nothing. -/
inductive Step (input : Option Packet) (l : Ledger) : Ledger → Prop where
  | accept (bs : Bytes) (hi : input = none) (hg : l.gone = false) : Step input l { l with
      accepted := l.accepted ++ [bs]
      unsent := l.unsent.push bs
      written := l.written + bs.length }
  | pick (o : Nat) (c : Bytes) (lost : OrdMap Nat Unit) (hp : l.picked = none)
      (hc : l.chunks.get o = some c) (hl : ∀ k, k ≠ o → lost.get k = l.lost.get k) : Step input l { l with
      lost := lost
      picked := some o }
  | unlose (o : Nat) (hc : l.chunks.get o = none) : Step input l { l with
      lost := l.lost.delete o }
  | relist (offsets : List Nat) (head : Nat)
      (hh : l.sentHead ≤ l.sentOffsets.length → head ≤ offsets.length)
      (hl : ∀ o, l.chunks.get o ≠ none → o ∈ l.listed → o ∈ offsets.drop head) :
      Step input l { l with sentOffsets := offsets, sentHead := head }
  | split (o m : Nat) (c : Bytes) (offsets : List Nat) (hg : l.gone = false)
      (hc : l.chunks.get o = some c)
      (hm : m = l.packetBytes - dataHeader) (hlt : m < c.length)
      (hh : l.sentOffsets.length ≤ offsets.length)
      (hl : ∀ x, x ∈ l.listed ∨ (x = o + m ∧ o ∈ l.listed) → x ∈ offsets.drop l.sentHead) :
      Step input l { l with
        chunks := (l.chunks.set o (c.take m)).set (o + m) (c.drop m)
        sentOffsets := offsets
        lost := l.lost.set (o + m) () }
  | cut (n : Nat) (hg : l.gone = false) (hp : l.picked = none) (h0 : 0 < n)
      (hn : n ≤ l.unsent.bytes) :
      Step input l { l with
      unsent := (l.unsent.take n).2
      chunks := l.chunks.set l.nextOffset (l.unsent.take n).1
      nextOffset := l.nextOffset + n
      sentOffsets := l.sentOffsets ++ [l.nextOffset]
      picked := some l.nextOffset }
  | transmit (o floor size : Nat) (time : ℚ) (c : Bytes) (hp : l.picked = some o)
      (hc : l.chunks.get o = some c) : Step input l { l with
      nextPn := l.nextPn + 1
      inFlight := l.inFlight.set l.nextPn { offset := o, size := size, time := time }
      bytesInFlight := l.bytesInFlight + size
      emitted := l.emitted ++ [.data l.nextPn o floor c]
      picked := none }
  | probe : Step input l { l with
      nextPn := l.nextPn + 1
      emitted := l.emitted ++ [.probe l.nextPn] }
  | say (credit delay : Nat) : Step input l { l with
      emitted := l.emitted ++ [.ack credit delay l.ranges] }
  | stop (why : Cause) (closes : List Packet) (hg : l.gone = false)
      (hc : ∀ p ∈ closes, p = .close) (hh : why = .closeHeard → input = some .close)
      (hd : why = .drained → l.Drained) : Step input l { l with
      gone := true
      cause := some why
      emitted := l.emitted ++ closes }
  | ack (pn credit delay : Nat) (ranges : List (Nat × Nat)) (f : Flight) (hg : l.gone = false)
      (hf : l.inFlight.get pn = some f) (hi : input = some (.ack credit delay ranges))
      (hn : names ranges pn = true) : Step input l { l with
      inFlight := l.inFlight.delete pn
      bytesInFlight := l.bytesInFlight - f.size
      chunks := l.chunks.delete f.offset }
  | lose (pn : Nat) (f : Flight) (hf : l.inFlight.get pn = some f) : Step input l { l with
      inFlight := l.inFlight.delete pn
      bytesInFlight := l.bytesInFlight - f.size
      lost := if l.chunks.has f.offset then l.lost.set f.offset () else l.lost }
  | resize (window : ℚ) (packetBytes : Nat) (hw : minWindow ≤ l.window → minWindow ≤ window)
      (hp : Sized l.packetBytes → Sized packetBytes) : Step input l { l with
      window := window
      packetBytes := packetBytes }
  | note (pn : Nat) (hi : input = some (.probe pn)) : Step input l { l with
      ranges := record l.ranges pn }
  | arriveInOrder (pn o floor : Nat) (bs : Bytes) (hg : l.gone = false)
      (hi : input = some (.data pn o floor bs))
      (ho : o = l.inOrder) (ha : l.ahead.get o = none) : Step input l { l with
      ranges := record l.ranges pn
      furthest := max l.furthest (o + bs.length)
      held := l.held.push bs }
  | arriveAhead (pn o floor : Nat) (bs : Bytes) (hg : l.gone = false)
      (hi : input = some (.data pn o floor bs))
      (ho : l.inOrder < o) (ha : l.ahead.get o = none) : Step input l { l with
      ranges := record l.ranges pn
      furthest := max l.furthest (o + bs.length)
      ahead := l.ahead.set o bs }
  | arriveStale (pn o floor : Nat) (bs : Bytes) (hg : l.gone = false)
      (hi : input = some (.data pn o floor bs))
      (ho : o < l.inOrder ∨ l.ahead.get o ≠ none) : Step input l { l with
      ranges := record l.ranges pn
      furthest := max l.furthest (o + bs.length) }
  | forget (ranges : List (Nat × Nat)) (hr : ranges.Sublist l.ranges) : Step input l { l with
      ranges := ranges }
  | drain (next : Bytes) (hg : l.gone = false) (ha : l.ahead.get l.inOrder = some next) : Step input l { l with
      ahead := l.ahead.delete l.inOrder
      held := l.held.push next }
  | clear (hg : l.gone = false) (hf : l.inOrder = l.furthest) : Step input l { l with ahead := .empty }
  | hand (n : Nat) (hg : l.gone = false) (hn : n ≤ l.held.bytes) : Step input l { l with
      held := (l.held.take n).2
      taken := l.taken + n
      handed := l.handed ++ [(l.held.take n).1] }

abbrev Steps (input : Option Packet) : Ledger → Ledger → Prop :=
  Relation.ReflTransGen (Step input)

theorem Steps.one {input : Option Packet} {l l' : Ledger} (h : Step input l l') :
    Steps input l l' := Relation.ReflTransGen.single h

/-- The sending half. -/
structure TxFair (l : Ledger) : Prop where
  written : l.written = l.stream.length
  next_le : l.nextOffset ≤ l.written
  unsent : l.unsent.flat = l.stream.drop l.nextOffset
  head : l.sentHead ≤ l.sentOffsets.length
  chunk : ∀ o c, l.chunks.get o = some c → c ≠ [] ∧ o + c.length ≤ l.nextOffset
  listed : ∀ o c, l.chunks.get o = some c → o ∈ l.listed
  homed : ∀ o c, l.chunks.get o = some c → l.picked ≠ some o →
    l.lost.get o = some () ∨ ∃ pn f, l.inFlight.get pn = some f ∧ f.offset = o
  flying : ∀ pn f, l.inFlight.get pn = some f → pn < l.nextPn
  weight : l.bytesInFlight = l.inFlight.sum (fun e => e.2.size)
  window : minWindow ≤ l.window
  sized : Sized l.packetBytes

/-- The receiving half. -/
structure RxFair (l : Ledger) : Prop where
  taken : l.taken = l.handed.flatten.length
  ahead : ∀ o bs, l.ahead.get o = some bs → o + bs.length ≤ l.furthest
  count : l.ranges.length ≤ maxRanges
  ranges : ∀ r ∈ l.ranges, r.2 ≤ r.1

/-- What has gone out. -/
structure WireFair (l : Ledger) : Prop where
  sendable : ∀ p ∈ l.emitted, p.Sendable
  numbered : ∀ pn o floor bs, .data pn o floor bs ∈ l.emitted → pn < l.nextPn
  probed : ∀ pn, .probe pn ∈ l.emitted → pn < l.nextPn ∧
    ∀ o floor bs, .data pn o floor bs ∉ l.emitted
  acks : ∀ credit delay ranges, .ack credit delay ranges ∈ l.emitted → ∀ r ∈ ranges, r.2 ≤ r.1

/-- How it ends. -/
structure FateFair (l : Ledger) : Prop where
  caused : l.gone = false → l.cause = none
  closed : .close ∈ l.emitted → l.gone = true
  drained : l.cause = some .drained → l.Drained

/-- What holds of the books whatever the peer sends. -/
structure Fair (l : Ledger) : Prop where
  tx : l.TxFair
  rx : l.RxFair
  wire : l.WireFair
  fate : l.FateFair

namespace TxFair

theorem room_pos {l : Ledger} (h : l.TxFair) : 0 < l.packetBytes - dataHeader := by
  rcases h.sized with e | e <;> rw [e] <;> decide

theorem unsent_bytes {l : Ledger} (h : l.TxFair) :
    l.unsent.bytes = l.written - l.nextOffset := by
  rw [Pieces.bytes, h.unsent, List.length_drop, h.written]

theorem accept {l : Ledger} (h : l.TxFair) (bs : Bytes) : TxFair { l with
    accepted := l.accepted ++ [bs]
    unsent := l.unsent.push bs
    written := l.written + bs.length } := by
  have hs : stream { l with
      accepted := l.accepted ++ [bs]
      unsent := l.unsent.push bs
      written := l.written + bs.length } = l.stream ++ bs := by simp [stream]
  have hle : l.nextOffset ≤ l.stream.length := h.written ▸ h.next_le
  refine ⟨?_, Nat.le_add_right_of_le h.next_le, ?_, h.head, h.chunk, h.listed, h.homed,
    h.flying, h.weight, h.window, h.sized⟩
  · rw [hs, List.length_append, ← h.written]
  · rw [hs, Pieces.flat_push, h.unsent, List.drop_append_of_le_length hle]

theorem pick {l : Ledger} (h : l.TxFair) {o : Nat} {lost : OrdMap Nat Unit}
    (hp : l.picked = none) (hl : ∀ k, k ≠ o → lost.get k = l.lost.get k) :
    TxFair { l with lost := lost, picked := some o } := by
  refine ⟨h.written, h.next_le, h.unsent, h.head, h.chunk, h.listed, ?_, h.flying, h.weight,
    h.window, h.sized⟩
  intro k c hc hk
  have hne : k ≠ o := by
    rintro rfl
    exact hk rfl
  rw [hl k hne]
  exact h.homed k c hc (by rw [hp]; exact (Option.some_ne_none _).symm)

theorem unlose {l : Ledger} (h : l.TxFair) {o : Nat} (ho : l.chunks.get o = none) :
    TxFair { l with lost := l.lost.delete o } := by
  refine ⟨h.written, h.next_le, h.unsent, h.head, h.chunk, h.listed, ?_, h.flying, h.weight,
    h.window, h.sized⟩
  intro k c hc hk
  have hne : k ≠ o := by
    rintro rfl
    rw [ho] at hc
    cases hc
  simpa [OrdMap.get_delete, hne] using h.homed k c hc hk

theorem relist {l : Ledger} (h : l.TxFair) {offsets : List Nat} {head : Nat}
    (hh : l.sentHead ≤ l.sentOffsets.length → head ≤ offsets.length)
    (hl : ∀ o, l.chunks.get o ≠ none → o ∈ l.listed → o ∈ offsets.drop head) :
    TxFair { l with sentOffsets := offsets, sentHead := head } := by
  refine ⟨h.written, h.next_le, h.unsent, hh h.head, h.chunk, ?_, h.homed, h.flying, h.weight,
    h.window, h.sized⟩
  intro o c hc
  exact hl o (by rw [hc]; exact Option.some_ne_none c) (h.listed o c hc)

/-- A chunk after a split is one of the two pieces or one that was there. -/
theorem get_split {m : OrdMap Nat Bytes} {o n o' : Nat} {c c' : Bytes}
    (hc : ((m.set o (c.take n)).set (o + n) (c.drop n)).get o' = some c') :
    (o' = o + n ∧ c' = c.drop n) ∨ (o' = o ∧ c' = c.take n) ∨ m.get o' = some c' := by
  rw [OrdMap.get_set, OrdMap.get_set] at hc
  split at hc
  · rename_i h
    exact Or.inl ⟨h, (Option.some.inj hc).symm⟩
  · split at hc
    · rename_i h
      exact Or.inr (Or.inl ⟨h, (Option.some.inj hc).symm⟩)
    · exact Or.inr (Or.inr hc)

theorem split {l : Ledger} (h : l.TxFair) {o m : Nat} {c : Bytes} {offsets : List Nat}
    (hc : l.chunks.get o = some c) (hm : m = l.packetBytes - dataHeader) (hlt : m < c.length)
    (hh : l.sentOffsets.length ≤ offsets.length)
    (hl : ∀ x, x ∈ l.listed ∨ (x = o + m ∧ o ∈ l.listed) → x ∈ offsets.drop l.sentHead) :
    TxFair { l with
      chunks := (l.chunks.set o (c.take m)).set (o + m) (c.drop m)
      sentOffsets := offsets
      lost := l.lost.set (o + m) () } := by
  have h0 : 0 < m := hm ▸ h.room_pos
  obtain ⟨hne, hle⟩ := h.chunk o c hc
  refine ⟨h.written, h.next_le, h.unsent, Nat.le_trans h.head hh, ?_, ?_, ?_, h.flying, h.weight,
    h.window, h.sized⟩
  · intro o' c' hc'
    rcases get_split hc' with ⟨rfl, rfl⟩ | ⟨rfl, rfl⟩ | hc'
    · refine ⟨?_, ?_⟩
      · rw [ne_eq, List.drop_eq_nil_iff]; omega
      · rw [List.length_drop]; dsimp only; omega
    · refine ⟨?_, ?_⟩
      · rw [ne_eq, List.take_eq_nil_iff]
        rintro (h' | h')
        · omega
        · exact hne h'
      · rw [List.length_take]; dsimp only; omega
    · exact h.chunk o' c' hc'
  · intro o' c' hc'
    rcases get_split hc' with ⟨rfl, -⟩ | ⟨rfl, -⟩ | hc'
    · exact hl _ (Or.inr ⟨rfl, h.listed o c hc⟩)
    · exact hl _ (Or.inl (h.listed o' c hc))
    · exact hl _ (Or.inl (h.listed o' c' hc'))
  · intro o' c' hc' hp
    have keep : ∀ c'', l.chunks.get o' = some c'' → (l.lost.set (o + m) ()).get o' = some () ∨
        ∃ pn f, l.inFlight.get pn = some f ∧ f.offset = o' := by
      intro c'' hc''
      rcases h.homed o' c'' hc'' hp with hlost | hfly
      · refine Or.inl ?_
        rw [OrdMap.get_set]
        split
        · rfl
        · exact hlost
      · exact Or.inr hfly
    rcases get_split hc' with ⟨rfl, -⟩ | ⟨rfl, -⟩ | hc'
    · exact Or.inl (OrdMap.get_set_self _ _ _)
    · exact keep c hc
    · exact keep c' hc'

theorem cut {l : Ledger} (h : l.TxFair) {n : Nat} (hp : l.picked = none) (h0 : 0 < n)
    (hn : n ≤ l.unsent.bytes) : TxFair { l with
      unsent := (l.unsent.take n).2
      chunks := l.chunks.set l.nextOffset (l.unsent.take n).1
      nextOffset := l.nextOffset + n
      sentOffsets := l.sentOffsets ++ [l.nextOffset]
      picked := some l.nextOffset } := by
  have hb := h.unsent_bytes
  have hlen : (l.unsent.take n).1.length = n := by
    rw [Pieces.take_fst, List.length_take]
    exact Nat.min_eq_left hn
  have hdrop : (l.sentOffsets ++ [l.nextOffset]).drop l.sentHead = l.listed ++ [l.nextOffset] :=
    List.drop_append_of_le_length h.head
  refine ⟨h.written, ?_, ?_, ?_, ?_, ?_, ?_, h.flying, h.weight, h.window, h.sized⟩
  · dsimp only; omega
  · change (l.unsent.take n).2.flat = l.stream.drop (l.nextOffset + n)
    rw [Pieces.flat_take, h.unsent, List.drop_drop]
  · dsimp only
    rw [List.length_append]
    exact Nat.le_add_right_of_le h.head
  · intro o c hc
    simp only [OrdMap.get_set] at hc
    split at hc
    · rename_i ho
      obtain rfl := Option.some.inj hc
      refine ⟨?_, by rw [hlen, ho]⟩
      rw [← List.length_pos_iff, hlen]
      exact h0
    · obtain ⟨h₁, h₂⟩ := h.chunk o c hc
      exact ⟨h₁, by dsimp only; omega⟩
  · intro o c hc
    simp only [OrdMap.get_set] at hc
    change o ∈ (l.sentOffsets ++ [l.nextOffset]).drop l.sentHead
    rw [hdrop, List.mem_append, List.mem_singleton]
    split at hc
    · rename_i ho
      exact Or.inr ho
    · exact Or.inl (h.listed o c hc)
  · intro o c hc hk
    simp only [OrdMap.get_set] at hc
    split at hc
    · rename_i ho
      exact absurd (congrArg some ho).symm hk
    · exact h.homed o c hc (by rw [hp]; exact (Option.some_ne_none _).symm)

theorem transmit {l : Ledger} (h : l.TxFair) {o size : Nat} {time : ℚ} {p : Packet}
    (hp : l.picked = some o) : TxFair { l with
      nextPn := l.nextPn + 1
      inFlight := l.inFlight.set l.nextPn { offset := o, size := size, time := time }
      bytesInFlight := l.bytesInFlight + size
      emitted := l.emitted ++ [p]
      picked := none } := by
  have hnew : l.inFlight.get l.nextPn = none := by
    rw [Option.eq_none_iff_forall_ne_some]
    intro f hf
    exact Nat.lt_irrefl _ (h.flying _ f hf)
  refine ⟨h.written, h.next_le, h.unsent, h.head, h.chunk, h.listed, ?_, ?_, ?_, h.window, h.sized⟩
  · intro o' c hc _
    by_cases ho : o' = o
    · exact Or.inr ⟨l.nextPn, _, OrdMap.get_set_self _ _ _, ho.symm⟩
    · rcases h.homed o' c hc (by rw [hp]; exact fun e => ho (Option.some.inj e).symm) with hl | hf
      · exact Or.inl hl
      · obtain ⟨pn, f, hf, hfo⟩ := hf
        have hne : pn ≠ l.nextPn := Nat.ne_of_lt (h.flying pn f hf)
        exact Or.inr ⟨pn, f, by simpa [OrdMap.get_set, hne] using hf, hfo⟩
  · intro pn f hf
    simp only [OrdMap.get_set] at hf
    split at hf
    · rename_i e
      rw [e]
      exact Nat.lt_succ_self _
    · exact Nat.lt_succ_of_lt (h.flying pn f hf)
  · dsimp only
    rw [OrdMap.sum_set_new _ _ _ _ hnew, h.weight]
    push_cast
    ring

theorem skip {l : Ledger} (h : l.TxFair) (p : Packet) : TxFair { l with
    nextPn := l.nextPn + 1, emitted := l.emitted ++ [p] } :=
  ⟨h.written, h.next_le, h.unsent, h.head, h.chunk, h.listed, h.homed,
    fun pn f hf => Nat.lt_succ_of_lt (h.flying pn f hf), h.weight, h.window, h.sized⟩

/-- Taking a packet out of flight keeps the weight right. -/
theorem weight_delete {l : Ledger} (h : l.TxFair) {pn : Nat} {f : Flight}
    (hf : l.inFlight.get pn = some f) :
    l.bytesInFlight - f.size = (l.inFlight.delete pn).sum (fun e => e.2.size) := by
  have hd := l.inFlight.sum_delete (fun e => e.2.size) pn f hf
  rw [h.weight, hd]
  push_cast
  ring

theorem flying_delete {l : Ledger} (h : l.TxFair) {pn k : Nat} {f : Flight}
    (hf : (l.inFlight.delete pn).get k = some f) : k < l.nextPn := by
  rw [OrdMap.get_delete] at hf
  split at hf
  · cases hf
  · exact h.flying k f hf

/-- A chunk at another offset than packet `pn` carried is homed without `pn`. -/
theorem homed_delete {l : Ledger} (h : l.TxFair) {pn o : Nat} {f : Flight} {c : Bytes}
    (hf : l.inFlight.get pn = some f) (hc : l.chunks.get o = some c) (ho : o ≠ f.offset)
    (hp : l.picked ≠ some o) : l.lost.get o = some () ∨
      ∃ k g, (l.inFlight.delete pn).get k = some g ∧ g.offset = o := by
  rcases h.homed o c hc hp with hl | ⟨k, g, hk, hg⟩
  · exact Or.inl hl
  · refine Or.inr ⟨k, g, ?_, hg⟩
    have hkn : k ≠ pn := by
      rintro rfl
      rw [hf] at hk
      cases hk
      exact ho hg.symm
    simpa [OrdMap.get_delete, hkn] using hk

theorem ack {l : Ledger} (h : l.TxFair) {pn : Nat} {f : Flight}
    (hf : l.inFlight.get pn = some f) : TxFair { l with
      inFlight := l.inFlight.delete pn
      bytesInFlight := l.bytesInFlight - f.size
      chunks := l.chunks.delete f.offset } := by
  have hcase : ∀ o c, (l.chunks.delete f.offset).get o = some c →
      o ≠ f.offset ∧ l.chunks.get o = some c := by
    intro o c hc
    rw [OrdMap.get_delete] at hc
    split at hc
    · cases hc
    · rename_i ho
      exact ⟨ho, hc⟩
  refine ⟨h.written, h.next_le, h.unsent, h.head, ?_, ?_, ?_, ?_, h.weight_delete hf, h.window,
    h.sized⟩
  · intro o c hc
    exact h.chunk o c (hcase o c hc).2
  · intro o c hc
    exact h.listed o c (hcase o c hc).2
  · intro o c hc hp
    obtain ⟨ho, hc⟩ := hcase o c hc
    exact h.homed_delete hf hc ho hp
  · intro k g hg
    exact h.flying_delete hg

theorem lose {l : Ledger} (h : l.TxFair) {pn : Nat} {f : Flight}
    (hf : l.inFlight.get pn = some f) : TxFair { l with
      inFlight := l.inFlight.delete pn
      bytesInFlight := l.bytesInFlight - f.size
      lost := if l.chunks.has f.offset then l.lost.set f.offset () else l.lost } := by
  refine ⟨h.written, h.next_le, h.unsent, h.head, h.chunk, h.listed, ?_, ?_, h.weight_delete hf,
    h.window, h.sized⟩
  · intro o c hc hp
    dsimp only at hc ⊢
    by_cases ho : o = f.offset
    · subst ho
      have hhas : l.chunks.has f.offset = true := (OrdMap.has_iff _ _).mpr ⟨c, hc⟩
      exact Or.inl (by simp [hhas])
    · rcases h.homed_delete hf hc ho hp with hl | hfly
      · refine Or.inl ?_
        split
        · simpa [OrdMap.get_set, ho] using hl
        · exact hl
      · exact Or.inr hfly
  · intro k g hg
    exact h.flying_delete hg

theorem step {input : Option Packet} {l l' : Ledger} (h : l.TxFair) (hs : Step input l l') :
    l'.TxFair := by
  cases hs with
  | accept bs hi hg => exact h.accept bs
  | pick o c lost hp hc hl => exact h.pick hp hl
  | unlose o hc => exact h.unlose hc
  | relist offsets head hh hl => exact h.relist hh hl
  | split o m c offsets hg hc hm hlt hh hl => exact h.split hc hm hlt hh hl
  | cut n hg hp h0 hn => exact h.cut hp h0 hn
  | transmit o floor size time c hp hc => exact h.transmit hp
  | probe => exact h.skip _
  | ack pn credit delay ranges f hg hf hi hn => exact h.ack hf
  | lose pn f hf => exact h.lose hf
  | resize window packetBytes hw hp =>
    exact ⟨h.written, h.next_le, h.unsent, h.head, h.chunk, h.listed, h.homed, h.flying,
      h.weight, hw h.window, hp h.sized⟩
  | say | stop | note | arriveInOrder | arriveAhead | arriveStale | forget | drain | clear
    | hand =>
    exact ⟨h.written, h.next_le, h.unsent, h.head, h.chunk, h.listed, h.homed, h.flying,
      h.weight, h.window, h.sized⟩

theorem steps {input : Option Packet} {l l' : Ledger} (h : l.TxFair) (hs : Steps input l l') :
    l'.TxFair := by
  induction hs with
  | refl => exact h
  | tail _ hstep ih => exact ih.step hstep

end TxFair

theorem recordFrom_ordered (pn : Nat) (ranges : List (Nat × Nat))
    (h : ∀ r ∈ ranges, r.2 ≤ r.1) : ∀ r ∈ recordFrom pn ranges, r.2 ≤ r.1 := by
  induction ranges with
  | nil => simp [recordFrom]
  | cons r rest ih =>
    obtain ⟨hi, lo⟩ := r
    have hr : lo ≤ hi := h (hi, lo) List.mem_cons_self
    have hrest : ∀ x ∈ rest, x.2 ≤ x.1 := fun x hx => h x (List.mem_cons_of_mem _ hx)
    unfold recordFrom
    split
    · simp only [List.forall_mem_cons]
      exact ⟨hr, ih hrest⟩
    · split
      · simp only [List.forall_mem_cons]
        exact ⟨Nat.le_refl _, hr, hrest⟩
      · split
        · simp only [List.forall_mem_cons]
          exact ⟨by omega, hrest⟩
        · split
          · split
            · rename_i hi' lo' rest'
              simp only [List.forall_mem_cons] at hrest
              split
              · simp only [List.forall_mem_cons]
                exact ⟨by omega, hrest.2⟩
              · simp only [List.forall_mem_cons]
                exact ⟨by omega, hrest⟩
            · simp only [List.forall_mem_cons]
              exact ⟨by omega, List.forall_mem_nil _⟩
          · exact h

theorem record_ordered {pn : Nat} {ranges : List (Nat × Nat)} (h : ∀ r ∈ ranges, r.2 ≤ r.1) :
    ∀ r ∈ record ranges pn, r.2 ≤ r.1 :=
  fun r hr => recordFrom_ordered pn ranges h r (List.mem_of_mem_take hr)

namespace RxFair

/-- A step that takes in packet `pn` and leaves the rest of the half as it was but for a
chunk in order or ahead. -/
theorem noted {l l' : Ledger} (h : l.RxFair) {pn : Nat} (hr : l'.ranges = record l.ranges pn)
    (ht : l'.taken = l.taken) (hd : l'.handed = l.handed)
    (ha : ∀ o bs, l'.ahead.get o = some bs → o + bs.length ≤ l'.furthest) : l'.RxFair where
  taken := by rw [ht, hd]; exact h.taken
  ahead := ha
  count := by rw [hr, record, List.length_take]; exact Nat.min_le_left _ _
  ranges := by rw [hr]; exact record_ordered h.ranges

theorem step {input : Option Packet} {l l' : Ledger} (h : l.RxFair) (hs : Step input l l') :
    l'.RxFair := by
  have hmax : ∀ n o bs, l.ahead.get o = some bs → o + bs.length ≤ max l.furthest n :=
    fun n o bs hb => Nat.le_trans (h.ahead o bs hb) (Nat.le_max_left _ _)
  cases hs with
  | note pn hi => exact h.noted rfl rfl rfl h.ahead
  | arriveInOrder pn o floor bs hg hi ho ha => exact h.noted rfl rfl rfl (hmax _)
  | arriveStale pn o floor bs hg hi ho => exact h.noted rfl rfl rfl (hmax _)
  | arriveAhead pn o floor bs hg hi ho ha =>
    refine h.noted rfl rfl rfl ?_
    intro o' bs' hb
    simp only [OrdMap.get_set] at hb
    split at hb
    · rename_i e
      cases hb
      rw [e]
      exact Nat.le_max_right _ _
    · exact hmax _ o' bs' hb
  | forget ranges hr =>
    exact ⟨h.taken, h.ahead, Nat.le_trans hr.length_le h.count,
      fun r hr' => h.ranges r (hr.subset hr')⟩
  | drain next hg ha =>
    refine ⟨h.taken, ?_, h.count, h.ranges⟩
    intro o bs hb
    simp only [OrdMap.get_delete] at hb
    split at hb
    · cases hb
    · exact h.ahead o bs hb
  | clear hg hf =>
    refine ⟨h.taken, ?_, h.count, h.ranges⟩
    intro o bs hb
    simp at hb
  | hand n hg hn =>
    refine ⟨?_, h.ahead, h.count, h.ranges⟩
    have hlen : (l.held.flat.take n).length = n := by
      rw [List.length_take]
      exact Nat.min_eq_left hn
    simp only [Pieces.take_fst, List.flatten_append, List.length_append, List.flatten_cons,
      List.flatten_nil, List.append_nil, hlen]
    rw [h.taken]
  | accept | pick | unlose | relist | split | cut | transmit | probe | say | stop | ack | lose
    | resize => exact ⟨h.taken, h.ahead, h.count, h.ranges⟩

theorem steps {input : Option Packet} {l l' : Ledger} (h : l.RxFair) (hs : Steps input l l') :
    l'.RxFair := by
  induction hs with
  | refl => exact h
  | tail _ hstep ih => exact ih.step hstep

end RxFair

namespace WireFair

/-- Packets sent on top, under no number that was in use. -/
theorem emit {l l' : Ledger} {ps : List Packet} (h : l.WireFair) (he : l'.emitted = l.emitted ++ ps)
    (hle : l.nextPn ≤ l'.nextPn) (hs : ∀ p ∈ ps, p.Sendable)
    (hd : ∀ pn o floor bs, .data pn o floor bs ∈ ps → l.nextPn ≤ pn ∧ pn < l'.nextPn)
    (hp : ∀ pn, .probe pn ∈ ps → l.nextPn ≤ pn ∧ pn < l'.nextPn ∧
      ∀ o floor bs, .data pn o floor bs ∉ ps)
    (ha : ∀ credit delay ranges, .ack credit delay ranges ∈ ps → ∀ r ∈ ranges, r.2 ≤ r.1) :
    l'.WireFair where
  sendable := by
    rw [he]
    intro p hm
    exact (List.mem_append.mp hm).elim (h.sendable p) (hs p)
  numbered := by
    rw [he]
    intro pn o floor bs hm
    rcases List.mem_append.mp hm with hm | hm
    · exact Nat.lt_of_lt_of_le (h.numbered pn o floor bs hm) hle
    · exact (hd pn o floor bs hm).2
  probed := by
    rw [he]
    intro pn hm
    rcases List.mem_append.mp hm with hm | hm
    · obtain ⟨hlt, hno⟩ := h.probed pn hm
      refine ⟨Nat.lt_of_lt_of_le hlt hle, ?_⟩
      intro o floor bs hm'
      rcases List.mem_append.mp hm' with hm' | hm'
      · exact hno o floor bs hm'
      · exact Nat.not_lt_of_le (hd pn o floor bs hm').1 hlt
    · obtain ⟨hge, hlt, hno⟩ := hp pn hm
      refine ⟨hlt, ?_⟩
      intro o floor bs hm'
      rcases List.mem_append.mp hm' with hm' | hm'
      · exact Nat.not_lt_of_le hge (h.numbered pn o floor bs hm')
      · exact hno o floor bs hm'
  acks := by
    rw [he]
    intro credit delay ranges hm
    exact (List.mem_append.mp hm).elim (h.acks credit delay ranges) (ha credit delay ranges)

/-- A step that sends nothing and takes no number. -/
theorem silent {l l' : Ledger} (h : l.WireFair) (he : l'.emitted = l.emitted)
    (hn : l'.nextPn = l.nextPn) : l'.WireFair where
  sendable := by rw [he]; exact h.sendable
  numbered := by rw [he, hn]; exact h.numbered
  probed := by rw [he, hn]; exact h.probed
  acks := by rw [he]; exact h.acks

theorem step {input : Option Packet} {l l' : Ledger} (h : l.WireFair) (ht : l.TxFair)
    (hr : l.RxFair) (hs : Step input l l') : l'.WireFair := by
  cases hs with
  | transmit o floor size time c hp hc =>
    refine h.emit rfl (Nat.le_succ _) ?_ ?_ ?_ ?_
    · simpa [Packet.Sendable] using (ht.chunk o c hc).1
    · intro pn o' floor' bs hm
      cases List.mem_singleton.mp hm
      exact ⟨Nat.le_refl _, Nat.lt_succ_self _⟩
    · intro pn hm
      cases List.mem_singleton.mp hm
    · intro credit delay ranges hm
      cases List.mem_singleton.mp hm
  | probe =>
    refine h.emit rfl (Nat.le_succ _) ?_ ?_ ?_ ?_
    · simp [Packet.Sendable]
    · intro pn o floor bs hm
      cases List.mem_singleton.mp hm
    · intro pn hm
      cases List.mem_singleton.mp hm
      exact ⟨Nat.le_refl _, Nat.lt_succ_self _, by simp⟩
    · intro credit delay ranges hm
      cases List.mem_singleton.mp hm
  | say credit delay =>
    refine h.emit rfl (Nat.le_refl _) ?_ ?_ ?_ ?_
    · simpa [Packet.Sendable] using Nat.lt_of_le_of_lt hr.count (by decide)
    · intro pn o floor bs hm
      cases List.mem_singleton.mp hm
    · intro pn hm
      cases List.mem_singleton.mp hm
    · intro credit' delay' ranges hm
      cases List.mem_singleton.mp hm
      exact hr.ranges
  | stop why closes hg hc hh hd =>
    refine h.emit rfl (Nat.le_refl _) ?_ ?_ ?_ ?_
    · intro p hm
      rw [hc p hm]
      trivial
    · intro pn o floor bs hm
      cases hc _ hm
    · intro pn hm
      cases hc _ hm
    · intro credit delay ranges hm
      cases hc _ hm
  | accept | pick | unlose | relist | split | cut | ack | lose | resize | note | arriveInOrder
    | arriveAhead | arriveStale | forget | drain | clear | hand => exact h.silent rfl rfl

end WireFair

namespace FateFair

theorem step {input : Option Packet} {l l' : Ledger} (h : l.FateFair) (hs : Step input l l') :
    l'.FateFair := by
  have keep : ∀ {P : Prop}, l.gone = false → l.cause = some .drained → P := by
    intro P hg hc
    rw [h.caused hg] at hc
    cases hc
  cases hs with
  | stop why closes hg hc hh hd =>
    refine ⟨?_, fun _ => rfl, ?_⟩
    · intro hg'
      cases hg'
    intro hwhy
    exact hd (Option.some.inj hwhy)
  | transmit o floor size time c hp hc =>
    refine ⟨h.caused, ?_, h.drained⟩
    intro hm
    exact h.closed (by simpa using hm)
  | probe =>
    refine ⟨h.caused, ?_, h.drained⟩
    intro hm
    exact h.closed (by simpa using hm)
  | say credit delay =>
    refine ⟨h.caused, ?_, h.drained⟩
    intro hm
    exact h.closed (by simpa using hm)
  | accept bs hi hg => exact ⟨h.caused, h.closed, keep hg⟩
  | split o m c offsets hg => exact ⟨h.caused, h.closed, keep hg⟩
  | cut n hg => exact ⟨h.caused, h.closed, keep hg⟩
  | ack pn credit delay ranges f hg => exact ⟨h.caused, h.closed, keep hg⟩
  | _ => exact ⟨h.caused, h.closed, h.drained⟩

end FateFair

theorem Fair.step {input : Option Packet} {l l' : Ledger} (h : l.Fair) (hs : Step input l l') :
    l'.Fair := ⟨h.tx.step hs, h.rx.step hs, h.wire.step h.tx h.rx hs, h.fate.step hs⟩

theorem Fair.steps {input : Option Packet} {l l' : Ledger} (h : l.Fair) (hs : Steps input l l') :
    l'.Fair := by
  induction hs with
  | refl => exact h
  | tail _ hstep ih => exact ih.step hstep

/-- The books of a stream just made. -/
theorem Fair.init : ({} : UdpStream).ledger.Fair := by
  refine ⟨⟨rfl, Nat.le_refl _, rfl, Nat.le_refl _, ?_, ?_, ?_, ?_, rfl, ?_, Or.inl rfl⟩,
    ⟨rfl, ?_, Nat.zero_le _, ?_⟩, ⟨?_, ?_, ?_, ?_⟩, ⟨fun _ => rfl, ?_, ?_⟩⟩
  all_goals simp [UdpStream.ledger]
  simp only [minWindow, initialWindow, basePacket]
  norm_num

/-- Numbers and the stream only grow, and nothing sent is unsent. -/
theorem Step.grows {input : Option Packet} {l l' : Ledger} (hs : Step input l l') :
    l.nextPn ≤ l'.nextPn ∧ l.written ≤ l'.written ∧ l.accepted <+: l'.accepted ∧
      l.emitted <+: l'.emitted := by
  cases hs <;> simp

theorem Steps.grows {input : Option Packet} {l l' : Ledger} (hs : Steps input l l') :
    l.nextPn ≤ l'.nextPn ∧ l.written ≤ l'.written ∧ l.accepted <+: l'.accepted ∧
      l.emitted <+: l'.emitted := by
  induction hs with
  | refl => exact ⟨Nat.le_refl _, Nat.le_refl _, List.prefix_rfl, List.prefix_rfl⟩
  | tail _ hstep ih =>
    obtain ⟨h₁, h₂, h₃, h₄⟩ := hstep.grows
    exact ⟨Nat.le_trans ih.1 h₁, Nat.le_trans ih.2.1 h₂, ih.2.2.1.trans h₃, ih.2.2.2.trans h₄⟩

/-- Nothing is given to send while a packet is taken in. -/
theorem Steps.accepted {p : Packet} {l l' : Ledger} (hs : Steps (some p) l l') :
    l'.accepted = l.accepted := by
  induction hs with
  | refl => rfl
  | tail _ hstep ih =>
    cases hstep with
    | accept bs hi => cases hi
    | _ => exact ih

/-- A stream that is gone stays as it stopped. -/
theorem Steps.frozen {input : Option Packet} {l l' : Ledger} (hs : Steps input l l')
    (hg : l.gone = true) : l'.gone = true ∧ l'.cause = l.cause ∧ l'.accepted = l.accepted ∧
      l'.handed = l.handed ∧ l'.held = l.held := by
  induction hs with
  | refl => exact ⟨hg, rfl, rfl, rfl, rfl⟩
  | tail _ hstep ih =>
    have hnot : ∀ {P : Prop}, _ = false → P := fun h => nomatch ih.1.symm.trans h
    cases hstep with
    | accept bs hi hg' => exact hnot hg'
    | stop why closes hg' => exact hnot hg'
    | arriveInOrder pn o floor bs hg' => exact hnot hg'
    | drain next hg' => exact hnot hg'
    | hand n hg' => exact hnot hg'
    | _ => exact ih

end Ledger

end SeedTransport.Stream
