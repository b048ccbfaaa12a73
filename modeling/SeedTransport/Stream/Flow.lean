import Mathlib
import SeedTransport.Stream.Refine
import SeedTransport.Lib.Delivery

set_option autoImplicit false

namespace SeedTransport.Stream

/-! The books of two ends, read as one direction of delivery, and each ledger step as steps
of that direction. -/

open Delivery

namespace Ledger

def Quiet (l : Ledger) : Prop := l.ahead.get l.inOrder = none

/-- From the end with books `l` to the end with books `r`. A number counts as received as
long as the receiver names it, or has named it in an ack that may still be under way. -/
def flow (l r : Ledger) : Flow UInt8 where
  stream := l.stream
  next := l.nextOffset
  chunks := l.chunks.get
  sent := fun pn o bs => ∃ floor, .data pn o floor bs ∈ l.emitted
  inFlight := fun pn => (l.inFlight.get pn).map Flight.offset
  nextPn := l.nextPn
  handed := r.handed.flatten
  held := r.held.flat
  ahead := r.ahead.get
  got := fun pn => names r.ranges pn = true ∨
    ∃ credit delay ranges, .ack credit delay ranges ∈ r.emitted ∧ names ranges pn = true

abbrev FlowSteps (honest : Prop) : Flow UInt8 → Flow UInt8 → Prop :=
  Relation.ReflTransGen (Flow.Step honest)

theorem flow_inOrder {l r : Ledger} (hr : r.RxFair) : (flow l r).inOrder = r.inOrder := by
  change r.handed.flatten.length + r.held.flat.length = r.taken + r.held.bytes
  rw [hr.taken]
  rfl

/-- Sending what is no DATA packet leaves the chunks sent as they were. -/
theorem sent_append {emitted ps : List Packet}
    (hp : ∀ pn o floor bs, .data pn o floor bs ∉ ps) :
    (fun pn o bs => ∃ floor, Packet.data pn o floor bs ∈ emitted ++ ps) =
      fun pn o bs => ∃ floor, Packet.data pn o floor bs ∈ emitted := by
  funext pn o bs
  simp only [List.mem_append, eq_iff_iff]
  constructor
  · rintro ⟨floor, h | h⟩
    · exact ⟨floor, h⟩
    · exact absurd h (hp pn o floor bs)
  · rintro ⟨floor, h⟩
    exact ⟨floor, Or.inl h⟩

theorem offset_set (m : OrdMap Nat Flight) (pn : Nat) (f : Flight) :
    (fun k => ((m.set pn f).get k).map Flight.offset) =
      Function.update (fun k => (m.get k).map Flight.offset) pn (some f.offset) := by
  funext k
  rw [OrdMap.get_set]
  by_cases h : k = pn
  · subst h; simp
  · simp [h]

theorem offset_delete (m : OrdMap Nat Flight) (pn : Nat) :
    (fun k => ((m.delete pn).get k).map Flight.offset) =
      Function.update (fun k => (m.get k).map Flight.offset) pn none := by
  funext k
  rw [OrdMap.get_delete]
  by_cases h : k = pn
  · subst h; simp
  · simp [h]

/-- A step of the sender is a step of its direction. -/
theorem Step.sender {honest : Prop} {input : Option Packet} {l l' r : Ledger}
    (hs : Step input l l') (hl : l.TxFair)
    (hack : honest → ∀ credit delay ranges, input = some (.ack credit delay ranges) →
      ∀ pn, names ranges pn = true → (flow l r).got pn) :
    FlowSteps honest (flow l r) (flow l' r) := by
  cases hs with
  | accept bs hi hg =>
    have h : flow { l with
        accepted := l.accepted ++ [bs]
        unsent := l.unsent.push bs
        written := l.written + bs.length } r =
        { flow l r with stream := (flow l r).stream ++ bs } := by
      simp [flow, stream]
    rw [h]
    exact .single (.accept bs)
  | split o m c offsets hg hc hm hlt hh hlist =>
    have h : Flow.Step honest (flow l r) _ := Flow.Step.split o m c hc (hm ▸ hl.room_pos) hlt
    refine .single ?_
    convert h using 1
    simp only [flow, OrdMap.get_set_eq_update]
    rfl
  | cut n hg hp h0 hn =>
    have hb := hl.unsent_bytes
    have hle : l.nextOffset + n ≤ l.stream.length := by
      have := hl.next_le
      rw [← hl.written]
      omega
    have h : Flow.Step honest (flow l r) _ := Flow.Step.cut n h0 hle
    refine .single ?_
    convert h using 1
    simp only [flow, OrdMap.get_set_eq_update, Pieces.take_fst, hl.unsent]
    rfl
  | transmit o floor size time c hp hc =>
    have h : Flow.Step honest (flow l r) _ := Flow.Step.transmit o c hc
    refine .single ?_
    convert h using 1
    simp only [flow, offset_set]
    congr 1
    funext pn o' bs
    simp only [List.mem_append, List.mem_singleton, eq_iff_iff]
    constructor
    · rintro ⟨fl, h | h⟩
      · exact Or.inl ⟨fl, h⟩
      · cases h
        exact Or.inr ⟨rfl, rfl, rfl⟩
    · rintro (⟨fl, h⟩ | ⟨rfl, rfl, rfl⟩)
      · exact ⟨fl, Or.inl h⟩
      · exact ⟨floor, Or.inr rfl⟩
  | probe =>
    refine .single ?_
    have h : Flow.Step honest (flow l r) _ := Flow.Step.skip
    convert h using 1
    simp only [flow]
    rw [sent_append (by simp)]
    rfl
  | say credit delay =>
    have h : flow { l with emitted := l.emitted ++ [.ack credit delay l.ranges] } r = flow l r := by
      simp only [flow]
      rw [sent_append (by simp)]
      rfl
    rw [h]
  | stop why closes hg hc hh hd =>
    have h : flow { l with
        gone := true, cause := some why, emitted := l.emitted ++ closes } r = flow l r := by
      simp only [flow]
      rw [sent_append]
      · rfl
      · intro pn o floor bs hm
        cases hc _ hm
    rw [h]
  | ack pn credit delay ranges f hg hf hi hn =>
    have h : Flow.Step honest (flow l r) _ := Flow.Step.ack pn f.offset
      (by simp [flow, hf]) (fun hh => hack hh credit delay ranges hi pn hn)
    refine .single ?_
    convert h using 1
    simp only [flow, offset_delete]
    rw [OrdMap.get_delete_eq_update]
    rfl
  | lose pn f hf =>
    refine .single ?_
    have h : Flow.Step honest (flow l r) _ := Flow.Step.lose pn
    convert h using 1
    simp only [flow, offset_delete]
    rfl
  | pick | unlose | relist | resize | note | arriveInOrder | arriveAhead | arriveStale | forget
    | drain | clear | hand => exact .refl

theorem names_recordFrom (pn x : Nat) (ranges : List (Nat × Nat))
    (h : names (recordFrom pn ranges) x = true) : names ranges x = true ∨ x = pn := by
  induction ranges with
  | nil =>
    simp only [recordFrom, names, List.any_cons, List.any_nil, Bool.or_false,
      decide_eq_true_eq] at h
    exact Or.inr (by omega)
  | cons r rest ih =>
    obtain ⟨hi, lo⟩ := r
    have hcons : ∀ a b (rs : List (Nat × Nat)), names ((a, b) :: rs) x = true ↔
        (x ≤ a ∧ b ≤ x) ∨ names rs x = true := by
      intro a b rs
      simp [names]
    rw [hcons]
    unfold recordFrom at h
    split at h
    · rw [hcons] at h
      rcases h with h | h
      · exact Or.inl (Or.inl h)
      · rcases ih h with h | h
        · exact Or.inl (Or.inr h)
        · exact Or.inr h
    · split at h
      · rw [hcons, hcons] at h
        rcases h with h | h
        · exact Or.inr (by omega)
        · exact Or.inl h
      · split at h
        · rw [hcons] at h
          rcases h with h | h
          · omega
          · exact Or.inl (Or.inr h)
        · split at h
          · split at h
            · rename_i hi' lo' rest' _
              rw [hcons]
              split at h
              · rw [hcons] at h
                rcases h with h | h
                · omega
                · exact Or.inl (Or.inr (Or.inr h))
              · rw [hcons, hcons] at h
                rcases h with h | h
                · omega
                · exact Or.inl (Or.inr h)
            · rw [hcons] at h
              rcases h with h | h
              · omega
              · exact Or.inl (Or.inr h)
          · rw [hcons] at h
            exact Or.inl h

theorem names_sublist {rs ranges : List (Nat × Nat)} (hs : rs.Sublist ranges) {x : Nat}
    (h : names rs x = true) : names ranges x = true := by
  simp only [names, List.any_eq_true] at h ⊢
  obtain ⟨r, hr, hx⟩ := h
  exact ⟨r, hs.subset hr, hx⟩

theorem names_record {pn x : Nat} {ranges : List (Nat × Nat)}
    (h : names (record ranges pn) x = true) : names ranges x = true ∨ x = pn :=
  names_recordFrom pn x ranges (names_sublist (List.take_sublist _ _) h)

/-- Only an ack sent anew can add to what was ever named. -/
theorem got_append {emitted ps : List Packet} {pn : Nat} {named : Prop}
    (hp : ∀ credit delay ranges, .ack credit delay ranges ∈ ps → names ranges pn = true → named)
    (h : ∃ credit delay ranges, Packet.ack credit delay ranges ∈ emitted ++ ps ∧
      names ranges pn = true) :
    named ∨ ∃ credit delay ranges, Packet.ack credit delay ranges ∈ emitted ∧
      names ranges pn = true := by
  obtain ⟨credit, delay, ranges, hm, hn⟩ := h
  rcases List.mem_append.mp hm with hm | hm
  · exact Or.inr ⟨credit, delay, ranges, hm, hn⟩
  · exact Or.inl (hp credit delay ranges hm hn)

/-- A step of the receiver that adds nothing to what it names. -/
theorem forget_steps {honest : Prop} {F : Flow UInt8} {got : Nat → Prop}
    (hg : ∀ pn, got pn → F.got pn) : FlowSteps honest F { F with got := got } :=
  .single (.forget got hg)

theorem noted_got {l : Ledger} {r : Ledger} {k : Nat} {pn : Nat}
    (h : names (record r.ranges k) pn = true ∨ ∃ credit delay ranges,
      Packet.ack credit delay ranges ∈ r.emitted ∧ names ranges pn = true) :
    (flow l r).got pn ∨ pn = k := by
  rcases h with h | h
  · rcases names_record h with h | h
    · exact Or.inl (Or.inl h)
    · exact Or.inr h
  · exact Or.inl (Or.inr h)

/-- A step of the receiver is a step of its direction, for packets the sender sent. -/
theorem Step.receiver {honest : Prop} {input : Option Packet} {l r r' : Ledger}
    (hs : Step input r r') (hr : r.RxFair)
    (hdata : ∀ k o floor bs, input = some (.data k o floor bs) →
      ∃ pn, (flow l r).sent pn o bs ∧ (honest → k = pn))
    (hprobe : ∀ k, input = some (.probe k) → honest →
      k < l.nextPn ∧ ∀ o bs, ¬ (flow l r).sent k o bs) :
    FlowSteps honest (flow l r) (flow l r') := by
  have hord := flow_inOrder (l := l) hr
  cases hs with
  | note k hi =>
    have h : Flow.Step honest (flow l r) _ := Flow.Step.note k (hprobe k hi)
    exact .trans (.single h) (forget_steps (F := { flow l r with got := _ }) (fun pn => noted_got))
  | arriveInOrder k o floor bs hg hi ho ha =>
    obtain ⟨pn, hsent, hk⟩ := hdata k o floor bs hi
    have h : Flow.Step honest (flow l r) _ := Flow.Step.arriveInOrder pn k o bs hsent hk (by rw [hord]; exact ho) ha
    refine .trans (.single h) ?_
    have hf : FlowSteps honest
        { flow l r with held := (flow l r).held ++ bs, got := fun j => (flow l r).got j ∨ j = k }
        { flow l r with
          held := (flow l r).held ++ bs, got := (flow l { r with ranges := record r.ranges k }).got } :=
      forget_steps (fun pn => noted_got)
    convert hf using 1
    simp only [flow, Pieces.flat_push]
  | arriveAhead k o floor bs hg hi ho ha =>
    obtain ⟨pn, hsent, hk⟩ := hdata k o floor bs hi
    have h : Flow.Step honest (flow l r) _ := Flow.Step.arriveAhead pn k o bs hsent hk (by rw [hord]; exact ho) ha
    refine .trans (.single h) ?_
    have hf : FlowSteps honest
        { flow l r with
          ahead := Function.update (flow l r).ahead o (some bs)
          got := fun j => (flow l r).got j ∨ j = k }
        { flow l r with
          ahead := Function.update (flow l r).ahead o (some bs)
          got := (flow l { r with ranges := record r.ranges k }).got } :=
      forget_steps (fun pn => noted_got)
    convert hf using 1
    simp only [flow, OrdMap.get_set_eq_update]
  | arriveStale k o floor bs hg hi ho =>
    obtain ⟨pn, hsent, hk⟩ := hdata k o floor bs hi
    have h : Flow.Step honest (flow l r) _ := Flow.Step.arriveStale pn k o bs hsent hk (by
      rw [hord]
      rcases ho with ho | ho
      · exact Or.inl ho
      · exact Or.inr (Option.isSome_iff_ne_none.mpr ho))
    exact .trans (.single h) (forget_steps (F := { flow l r with got := _ }) (fun pn => noted_got))
  | forget ranges hsub =>
    refine forget_steps (F := flow l r) ?_
    rintro pn (h | h)
    · exact Or.inl (names_sublist hsub h)
    · exact Or.inr h
  | drain next hg ha =>
    have h : Flow.Step honest (flow l r) _ := Flow.Step.drain next (by rw [hord]; exact ha)
    refine .single ?_
    convert h using 1
    rw [hord]
    simp only [flow, OrdMap.get_delete_eq_update, Pieces.flat_push]
  | clear hg hf =>
    have h : Flow.Step honest (flow l r) _ := Flow.Step.clear (by
      intro o bs hb
      rw [hord, hf]
      exact hr.ahead o bs hb)
    exact .single h
  | hand n hg hn =>
    have h : Flow.Step honest (flow l r) _ := Flow.Step.hand n
    refine .single ?_
    convert h using 1
    simp [flow]
  | say credit delay =>
    refine forget_steps (F := flow l r) ?_
    rintro pn (h | h)
    · exact Or.inl h
    · refine got_append ?_ h
      intro credit' delay' ranges hm hn
      cases List.mem_singleton.mp hm
      exact hn
  | stop why closes hg hc hh hd =>
    refine forget_steps (F := flow l r) ?_
    rintro pn (h | h)
    · exact Or.inl h
    · exact got_append (fun _ _ _ hm => by cases hc _ hm) h
  | transmit =>
    refine forget_steps (F := flow l r) ?_
    rintro pn (h | h)
    · exact Or.inl h
    · exact got_append (fun _ _ _ hm => by cases List.mem_singleton.mp hm) h
  | probe =>
    refine forget_steps (F := flow l r) ?_
    rintro pn (h | h)
    · exact Or.inl h
    · exact got_append (fun _ _ _ hm => by cases List.mem_singleton.mp hm) h
  | accept | pick | unlose | relist | split | cut | ack | lose | resize => exact .refl

theorem Steps.sender {honest : Prop} {input : Option Packet} {l l' r : Ledger}
    (hs : Steps input l l') (hl : l.TxFair)
    (hack : honest → ∀ credit delay ranges, input = some (.ack credit delay ranges) →
      ∀ pn, names ranges pn = true → (flow l r).got pn) :
    FlowSteps honest (flow l r) (flow l' r) := by
  induction hs with
  | refl => exact .refl
  | tail hrun hstep ih => exact ih.trans (hstep.sender (hl.steps hrun) hack)

theorem Steps.receiver {honest : Prop} {input : Option Packet} {l r r' : Ledger}
    (hs : Steps input r r') (hr : r.RxFair)
    (hdata : ∀ k o floor bs, input = some (.data k o floor bs) →
      ∃ pn, (flow l r).sent pn o bs ∧ (honest → k = pn))
    (hprobe : ∀ k, input = some (.probe k) → honest →
      k < l.nextPn ∧ ∀ o bs, ¬ (flow l r).sent k o bs) :
    FlowSteps honest (flow l r) (flow l r') := by
  induction hs with
  | refl => exact .refl
  | tail hrun hstep ih => exact ih.trans (hstep.receiver (hr.steps hrun) hdata hprobe)

end Ledger

end SeedTransport.Stream
