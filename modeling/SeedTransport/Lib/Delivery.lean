import Mathlib

set_option autoImplicit false

/-! Delivery of a byte stream by offset over a network that loses, repeats and reorders
packets. A sender cuts its stream into chunks, sends each under a fresh packet number as
often as it likes, may split a chunk it resends, and frees a chunk when a number it was
sent under is acknowledged. A receiver appends what starts exactly where it stands, keeps
what starts past that, and notes every number it got. -/

namespace Delivery

/-- One direction of a connection: what the sender keeps, every packet ever sent, and what
the receiver holds. -/
structure Flow (β : Type) where
  stream : List β
  next : Nat
  chunks : Nat → Option (List β)
  /-- `sent pn o bs`: a packet numbered `pn` carried `bs` at offset `o`. -/
  sent : Nat → Nat → List β → Prop
  inFlight : Nat → Option Nat
  nextPn : Nat
  handed : List β
  held : List β
  ahead : Nat → Option (List β)
  got : Nat → Prop

/-- `bs` is what stands at offset `o` of `w`. -/
def Slice {β : Type} (w : List β) (o : Nat) (bs : List β) : Prop := (w.drop o).take bs.length = bs

namespace Flow

def inOrder {β : Type} (F : Flow β) : Nat := F.handed.length + F.held.length

/-- Byte `x` of the stream is at the receiver. -/
def Covered {β : Type} (F : Flow β) (x : Nat) : Prop :=
  x < F.inOrder ∨ ∃ o bs, F.ahead o = some bs ∧ o ≤ x ∧ x < o + bs.length

/-- What one event can do. `honest` says that packet numbers are read as they were written
and that only received ones are acknowledged; without it they are arbitrary. -/
inductive Step {β : Type} (honest : Prop) (F : Flow β) : Flow β → Prop where
  | accept (bs : List β) : Step honest F { F with stream := F.stream ++ bs }
  | cut (n : Nat) (hn : 0 < n) (hle : F.next + n ≤ F.stream.length) :
      Step honest F { F with
        chunks := Function.update F.chunks F.next (some ((F.stream.drop F.next).take n))
        next := F.next + n }
  | split (o m : Nat) (c : List β) (hc : F.chunks o = some c) (h0 : 0 < m) (hm : m < c.length) :
      Step honest F { F with
        chunks := Function.update (Function.update F.chunks o (some (c.take m))) (o + m)
          (some (c.drop m)) }
  | transmit (o : Nat) (c : List β) (hc : F.chunks o = some c) :
      Step honest F { F with
        sent := fun pn o' bs => F.sent pn o' bs ∨ (pn = F.nextPn ∧ o' = o ∧ bs = c)
        inFlight := Function.update F.inFlight F.nextPn (some o)
        nextPn := F.nextPn + 1 }
  | skip : Step honest F { F with nextPn := F.nextPn + 1 }
  | ack (pn o : Nat) (hf : F.inFlight pn = some o) (hg : honest → F.got pn) :
      Step honest F { F with
        inFlight := Function.update F.inFlight pn none
        chunks := Function.update F.chunks o none }
  | lose (pn : Nat) : Step honest F { F with inFlight := Function.update F.inFlight pn none }
  | note (pn : Nat) (hp : honest → pn < F.nextPn ∧ ∀ o bs, ¬ F.sent pn o bs) :
      Step honest F { F with got := fun k => F.got k ∨ k = pn }
  | arriveInOrder (pn k o : Nat) (bs : List β) (hs : F.sent pn o bs) (hk : honest → k = pn)
      (ho : o = F.inOrder) (ha : F.ahead o = none) :
      Step honest F { F with held := F.held ++ bs, got := fun j => F.got j ∨ j = k }
  | arriveAhead (pn k o : Nat) (bs : List β) (hs : F.sent pn o bs) (hk : honest → k = pn)
      (ho : F.inOrder < o) (ha : F.ahead o = none) :
      Step honest F { F with
        ahead := Function.update F.ahead o (some bs), got := fun j => F.got j ∨ j = k }
  | arriveStale (pn k o : Nat) (bs : List β) (hs : F.sent pn o bs) (hk : honest → k = pn)
      (ho : o < F.inOrder ∨ (F.ahead o).isSome) :
      Step honest F { F with got := fun j => F.got j ∨ j = k }
  | drain (bs : List β) (ha : F.ahead F.inOrder = some bs) :
      Step honest F { F with
        held := F.held ++ bs, ahead := Function.update F.ahead F.inOrder none }
  | clear (ha : ∀ o bs, F.ahead o = some bs → o + bs.length ≤ F.inOrder) :
      Step honest F { F with ahead := fun _ => none }
  | hand (n : Nat) :
      Step honest F { F with handed := F.handed ++ F.held.take n, held := F.held.drop n }
  | forget (got : Nat → Prop) (hg : ∀ pn, got pn → F.got pn) : Step honest F { F with got := got }

/-- Nothing but the stream's own bytes is anywhere, each at its offset. -/
structure Safe {β : Type} (F : Flow β) : Prop where
  bound : F.next ≤ F.stream.length
  chunk : ∀ o c, F.chunks o = some c → c ≠ [] ∧ o + c.length ≤ F.next ∧ Slice F.stream o c
  packet : ∀ pn o bs, F.sent pn o bs → bs ≠ [] ∧ o + bs.length ≤ F.next ∧ Slice F.stream o bs
  ahead : ∀ o bs, F.ahead o = some bs → o + bs.length ≤ F.next ∧ Slice F.stream o bs
  arrived : F.handed ++ F.held = F.stream.take F.inOrder
  inOrder_le : F.inOrder ≤ F.next

end Flow

theorem Slice.append {β : Type} {w : List β} {o : Nat} {bs : List β} (h : Slice w o bs)
    (v : List β) : Slice (w ++ v) o bs := by
  unfold Slice at *
  have hl := congrArg List.length h
  simp only [List.length_take, List.length_drop] at hl
  rcases Nat.eq_zero_or_pos bs.length with hz | hp
  · rw [hz, List.take_zero]; exact (List.length_eq_zero_iff.mp hz).symm
  · rw [List.drop_append, List.take_append, List.length_drop,
      show bs.length - (w.length - o) = 0 by omega, List.take_zero, List.append_nil]
    exact h

theorem Slice.take {β : Type} {w : List β} {o : Nat} {c : List β} (h : Slice w o c) (m : Nat) :
    Slice w o (c.take m) := by
  unfold Slice at *
  rw [List.length_take]
  conv_rhs => rw [← h]
  rw [List.take_take]

theorem Slice.drop {β : Type} {w : List β} {o : Nat} {c : List β} (h : Slice w o c) (m : Nat) :
    Slice w (o + m) (c.drop m) := by
  unfold Slice at *
  rw [List.length_drop]
  conv_rhs => rw [← h]
  rw [List.drop_take, List.drop_drop]

/-- A slice that starts where a prefix ends extends the prefix. -/
theorem Slice.take_append {β : Type} {w : List β} {o : Nat} {bs : List β} (h : Slice w o bs) :
    w.take o ++ bs = w.take (o + bs.length) := by
  unfold Slice at h
  rw [List.take_add, h]

namespace Flow

theorem Safe.step {β : Type} {honest : Prop} {F G : Flow β} (hF : F.Safe)
    (hs : Step honest F G) : G.Safe := by
  obtain ⟨hbound, hchunk, hpacket, hahead, harr, hord⟩ := hF
  cases hs with
  | accept bs =>
    refine ⟨?_, ?_, ?_, ?_, ?_, hord⟩
    · simp only [List.length_append]; omega
    · intro o c hc
      obtain ⟨h₁, h₂, h₃⟩ := hchunk o c hc
      exact ⟨h₁, h₂, h₃.append bs⟩
    · intro pn o c hc
      obtain ⟨h₁, h₂, h₃⟩ := hpacket pn o c hc
      exact ⟨h₁, h₂, h₃.append bs⟩
    · intro o c hc
      obtain ⟨h₁, h₂⟩ := hahead o c hc
      exact ⟨h₁, h₂.append bs⟩
    · have hle : F.inOrder ≤ F.stream.length := Nat.le_trans hord hbound
      change F.handed ++ F.held = (F.stream ++ bs).take F.inOrder
      rw [List.take_append_of_le_length hle]
      exact harr
  | cut n hn hle =>
    refine ⟨hle, ?_, ?_, ?_, harr, ?_⟩
    · intro o c hc
      by_cases ho : o = F.next
      · subst ho
        simp only [Function.update_self, Option.some.injEq] at hc
        subst hc
        have hlen : ((F.stream.drop F.next).take n).length = n := by
          rw [List.length_take, List.length_drop]; omega
        refine ⟨?_, ?_, ?_⟩
        · intro hnil
          rw [hnil] at hlen
          simp only [List.length_nil] at hlen
          omega
        · rw [hlen]
        · unfold Slice; rw [hlen]
      · simp only [Function.update_of_ne ho] at hc
        obtain ⟨h₁, h₂, h₃⟩ := hchunk o c hc
        exact ⟨h₁, by dsimp only; omega, h₃⟩
    · intro pn o c hc
      obtain ⟨h₁, h₂, h₃⟩ := hpacket pn o c hc
      exact ⟨h₁, by dsimp only; omega, h₃⟩
    · intro o c hc
      obtain ⟨h₁, h₂⟩ := hahead o c hc
      exact ⟨by dsimp only; omega, h₂⟩
    · have : F.inOrder ≤ F.next + n := by omega
      exact this
  | split o m c hc h0 hm =>
    obtain ⟨hne, hle, hsl⟩ := hchunk o c hc
    refine ⟨hbound, ?_, hpacket, hahead, harr, hord⟩
    intro o' c' hc'
    by_cases h₁ : o' = o + m
    · subst h₁
      simp only [Function.update_self, Option.some.injEq] at hc'
      subst hc'
      refine ⟨?_, ?_, hsl.drop m⟩
      · intro hnil
        have hl := congrArg List.length hnil
        simp only [List.length_drop, List.length_nil] at hl
        omega
      · rw [List.length_drop]; dsimp only; omega
    · by_cases h₂ : o' = o
      · subst h₂
        simp only [Function.update_of_ne h₁, Function.update_self, Option.some.injEq] at hc'
        subst hc'
        refine ⟨?_, ?_, hsl.take m⟩
        · intro hnil
          have hl := congrArg List.length hnil
          simp only [List.length_take, List.length_nil] at hl
          omega
        · rw [List.length_take]; dsimp only; omega
      · simp only [Function.update_of_ne h₁, Function.update_of_ne h₂] at hc'
        exact hchunk o' c' hc'
  | transmit o c hc =>
    refine ⟨hbound, hchunk, ?_, hahead, harr, hord⟩
    rintro pn o' bs (h | ⟨rfl, rfl, rfl⟩)
    · exact hpacket pn o' bs h
    · exact hchunk o' bs hc
  | skip => exact ⟨hbound, hchunk, hpacket, hahead, harr, hord⟩
  | ack pn o hf hg =>
    refine ⟨hbound, ?_, hpacket, hahead, harr, hord⟩
    intro o' c hc
    by_cases ho : o' = o
    · subst ho; simp at hc
    · simp only [Function.update_of_ne ho] at hc
      exact hchunk o' c hc
  | lose pn => exact ⟨hbound, hchunk, hpacket, hahead, harr, hord⟩
  | note pn hp => exact ⟨hbound, hchunk, hpacket, hahead, harr, hord⟩
  | arriveInOrder pn k o bs hs hk ho ha =>
    obtain ⟨_, hle, hsl⟩ := hpacket pn o bs hs
    subst ho
    have hin : F.handed.length + (F.held ++ bs).length = F.inOrder + bs.length := by
      simp only [inOrder, List.length_append]; omega
    refine ⟨hbound, hchunk, hpacket, hahead, ?_, ?_⟩
    · change F.handed ++ (F.held ++ bs) = F.stream.take (F.handed.length + (F.held ++ bs).length)
      rw [hin, ← hsl.take_append, ← harr, List.append_assoc]
    · change F.handed.length + (F.held ++ bs).length ≤ F.next
      rw [hin]; exact hle
  | arriveAhead pn k o bs hs hk ho ha =>
    refine ⟨hbound, hchunk, hpacket, ?_, harr, hord⟩
    intro o' c hc
    by_cases h : o' = o
    · subst h
      simp only [Function.update_self, Option.some.injEq] at hc
      subst hc
      exact (hpacket pn o' bs hs).2
    · simp only [Function.update_of_ne h] at hc
      exact hahead o' c hc
  | arriveStale pn k o bs hs hk ho => exact ⟨hbound, hchunk, hpacket, hahead, harr, hord⟩
  | drain bs ha =>
    obtain ⟨hle, hsl⟩ := hahead _ bs ha
    have hin : F.handed.length + (F.held ++ bs).length = F.inOrder + bs.length := by
      simp only [inOrder, List.length_append]; omega
    refine ⟨hbound, hchunk, hpacket, ?_, ?_, ?_⟩
    · intro o c hc
      by_cases h : o = F.inOrder
      · subst h; simp at hc
      · simp only [Function.update_of_ne h] at hc
        exact hahead o c hc
    · change F.handed ++ (F.held ++ bs) = F.stream.take (F.handed.length + (F.held ++ bs).length)
      rw [hin, ← hsl.take_append, ← harr, List.append_assoc]
    · change F.handed.length + (F.held ++ bs).length ≤ F.next
      rw [hin]; exact hle
  | clear ha =>
    refine ⟨hbound, hchunk, hpacket, ?_, harr, hord⟩
    intro o c hc
    simp at hc
  | hand n =>
    have hin : (F.handed ++ F.held.take n).length + (F.held.drop n).length = F.inOrder := by
      simp only [inOrder, List.length_append, List.length_take, List.length_drop]; omega
    refine ⟨hbound, hchunk, hpacket, hahead, ?_, ?_⟩
    · change F.handed ++ F.held.take n ++ F.held.drop n =
        F.stream.take ((F.handed ++ F.held.take n).length + (F.held.drop n).length)
      rw [hin, List.append_assoc, List.take_append_drop]; exact harr
    · change (F.handed ++ F.held.take n).length + (F.held.drop n).length ≤ F.next
      rw [hin]; exact hord
  | forget got hg => exact ⟨hbound, hchunk, hpacket, hahead, harr, hord⟩

theorem Safe.steps {β : Type} {honest : Prop} {F G : Flow β} (hF : F.Safe)
    (hs : Relation.ReflTransGen (Step honest) F G) : G.Safe := by
  induction hs with
  | refl => exact hF
  | tail _ hstep ih => exact ih.step hstep

/-- What has been handed over is a prefix of the stream. -/
theorem Safe.handed_isPrefix {β : Type} {F : Flow β} (hF : F.Safe) : F.handed <+: F.stream := by
  have h : F.handed <+: F.stream.take F.inOrder := hF.arrived ▸ List.prefix_append _ _
  exact h.trans (List.take_prefix _ _)

/-- Two runs of bytes are apart. -/
def Apart (o n o' n' : Nat) : Prop := o + n ≤ o' ∨ o' + n' ≤ o

/-- The run at `o'` lies inside the run at `o`. -/
def Inside (o' n' o n : Nat) : Prop := o ≤ o' ∧ o' + n' ≤ o + n

/-- The sender never frees a byte the receiver still needs. The point is `minimal`: a chunk
kept now has no packet boundary inside it, so whatever made the receiver pass over part of
it covers all of it. -/
structure Sound {β : Type} (F : Flow β) : Prop where
  apart : ∀ o c o' c', F.chunks o = some c → F.chunks o' = some c' → o < o' → o + c.length ≤ o'
  minimal : ∀ pn o bs o' c, F.sent pn o bs → F.chunks o' = some c →
    Apart o bs.length o' c.length ∨ Inside o' c.length o bs.length
  laminar : ∀ pn o bs pn' o' bs', F.sent pn o bs → F.sent pn' o' bs' →
    Apart o bs.length o' bs'.length ∨ Inside o' bs'.length o bs.length ∨
      Inside o bs.length o' bs'.length
  numbered : ∀ pn o bs, F.sent pn o bs → pn < F.nextPn
  unique : ∀ pn o bs o' bs', F.sent pn o bs → F.sent pn o' bs' → o = o' ∧ bs = bs'
  flight : ∀ pn o, F.inFlight pn = some o → ∃ bs, F.sent pn o bs
  got_lt : ∀ pn, F.got pn → pn < F.nextPn
  acked : ∀ pn o bs c, F.got pn → F.sent pn o bs → F.chunks o = some c →
    ∀ x, o ≤ x → x < o + c.length → F.Covered x
  freed : ∀ x, x < F.next → (∀ o c, F.chunks o = some c → o ≤ x → o + c.length ≤ x) → F.Covered x
  ahead_sent : ∀ o bs, F.ahead o = some bs → ∃ pn, F.sent pn o bs
  edge : F.inOrder = 0 ∨ ∃ pn o bs, F.sent pn o bs ∧ o + bs.length = F.inOrder
  tidy : ∀ o bs, F.ahead o = some bs → o < F.inOrder → o + bs.length ≤ F.inOrder

/-- A packet at a kept chunk's offset carried at least that chunk. -/
theorem Sound.chunk_le {β : Type} {F : Flow β} (hF : F.Sound) (hS : F.Safe) {pn o : Nat}
    {bs c : List β} (hs : F.sent pn o bs) (hc : F.chunks o = some c) : c.length ≤ bs.length := by
  have hb : bs.length ≠ 0 := fun h => (hS.packet pn o bs hs).1 (List.length_eq_zero_iff.mp h)
  have hl : c.length ≠ 0 := fun h => (hS.chunk o c hc).1 (List.length_eq_zero_iff.mp h)
  rcases hF.minimal pn o bs o c hs hc with (h | h) | ⟨_, h⟩ <;> omega

/-- No packet starts strictly inside a kept chunk. -/
theorem Sound.not_sent_inside {β : Type} {F : Flow β} (hF : F.Sound) (hS : F.Safe) {pn o m : Nat}
    {bs c : List β} (hc : F.chunks o = some c) (h0 : 0 < m) (hm : m < c.length) :
    ¬ F.sent pn (o + m) bs := by
  intro hs
  have hb : bs.length ≠ 0 := fun h => (hS.packet pn _ bs hs).1 (List.length_eq_zero_iff.mp h)
  rcases hF.minimal pn (o + m) bs o c hs hc with (h | h) | ⟨h, _⟩ <;> omega

/-- A packet passed over because the receiver already stands past its start, or has a chunk
there, left nothing of the kept chunk uncovered. -/
theorem Sound.covered_of_stale {β : Type} {F : Flow β} (hF : F.Sound) (hS : F.Safe) {o : Nat}
    {c : List β} (hc : F.chunks o = some c) (ho : o < F.inOrder ∨ (F.ahead o).isSome) :
    ∀ x, o ≤ x → x < o + c.length → F.Covered x := by
  intro x hx hxc
  rcases ho with ho | ho
  · rcases hF.edge with h0 | ⟨pn, o', bs, hs, hend⟩
    · omega
    · have hl : c.length ≠ 0 := fun h => (hS.chunk o c hc).1 (List.length_eq_zero_iff.mp h)
      have : o + c.length ≤ F.inOrder := by
        rcases hF.minimal pn o' bs o c hs hc with (h | h) | ⟨_, h⟩ <;> omega
      exact Or.inl (by omega)
  · obtain ⟨bs, hb⟩ := Option.isSome_iff_exists.mp ho
    obtain ⟨pn, hs⟩ := hF.ahead_sent o bs hb
    have hle := hF.chunk_le hS hs hc
    exact Or.inr ⟨o, bs, hb, hx, by omega⟩

/-- Appending a packet that starts where the receiver stands leaves no waiting packet
straddling the new end. -/
theorem Sound.tidy_append {β : Type} {F : Flow β} (hF : F.Sound) (hS : F.Safe) {pn : Nat}
    {bs : List β} (hs : F.sent pn F.inOrder bs) :
    ∀ o bs', F.ahead o = some bs' → o ≠ F.inOrder → o < F.inOrder + bs.length →
      o + bs'.length ≤ F.inOrder + bs.length := by
  intro o bs' ha hne hlt
  rcases Nat.lt_or_ge o F.inOrder with h | h
  · have := hF.tidy o bs' ha h
    omega
  · obtain ⟨pn', hs'⟩ := hF.ahead_sent o bs' ha
    have hb : bs'.length ≠ 0 := fun h => (hS.packet _ _ bs' hs').1 (List.length_eq_zero_iff.mp h)
    rcases hF.laminar _ _ bs _ _ bs' hs hs' with (h' | h') | ⟨_, h'⟩ | ⟨h', _⟩ <;> omega

/-- The receiver loses nothing it had. -/
def Kept {β : Type} (F G : Flow β) : Prop := ∀ x, F.Covered x → G.Covered x

theorem kept_append {β : Type} (F : Flow β) (bs : List β) (got : Nat → Prop) :
    F.Kept { F with held := F.held ++ bs, got := got } := by
  rintro x (hx | ⟨o, c, ha, h₁, h₂⟩)
  · refine Or.inl ?_
    simp only [inOrder, List.length_append] at *
    omega
  · exact Or.inr ⟨o, c, ha, h₁, h₂⟩

theorem kept_ahead {β : Type} (F : Flow β) (o : Nat) (bs : List β) (got : Nat → Prop)
    (ha : F.ahead o = none) :
    F.Kept { F with ahead := Function.update F.ahead o (some bs), got := got } := by
  rintro x (hx | ⟨o', c, hc, h₁, h₂⟩)
  · exact Or.inl hx
  · have hne : o' ≠ o := by
      rintro rfl
      rw [ha] at hc
      cases hc
    exact Or.inr ⟨o', c, by simpa [Function.update_of_ne hne] using hc, h₁, h₂⟩

theorem kept_drain {β : Type} (F : Flow β) (bs : List β) (ha : F.ahead F.inOrder = some bs) :
    F.Kept { F with held := F.held ++ bs, ahead := Function.update F.ahead F.inOrder none } := by
  rintro x (hx | ⟨o, c, hc, h₁, h₂⟩)
  · refine Or.inl ?_
    simp only [inOrder, List.length_append] at *
    omega
  · by_cases ho : o = F.inOrder
    · subst ho
      rw [ha] at hc
      cases hc
      refine Or.inl ?_
      simp only [inOrder, List.length_append] at *
      omega
    · exact Or.inr ⟨o, c, by simpa [Function.update_of_ne ho] using hc, h₁, h₂⟩

theorem Sound.step {β : Type} {F G : Flow β} (hF : F.Sound) (hS : F.Safe)
    (hs : Step True F G) : G.Sound := by
  have hpos : ∀ o c, F.chunks o = some c → 0 < c.length := fun o c hc =>
    List.length_pos_iff.mpr (hS.chunk o c hc).1
  have hpos' : ∀ pn o bs, F.sent pn o bs → 0 < bs.length := fun pn o bs h =>
    List.length_pos_iff.mpr (hS.packet pn o bs h).1
  cases hs with
  | accept bs => exact ⟨hF.apart, hF.minimal, hF.laminar, hF.numbered, hF.unique, hF.flight,
      hF.got_lt, hF.acked, hF.freed, hF.ahead_sent, hF.edge, hF.tidy⟩
  | cut n hn hle =>
    have hlen : ((F.stream.drop F.next).take n).length = n := by
      rw [List.length_take, List.length_drop]; omega
    have hcase : ∀ o c, Function.update F.chunks F.next (some ((F.stream.drop F.next).take n)) o =
        some c → (o = F.next ∧ c.length = n) ∨ F.chunks o = some c := by
      intro o c hc
      by_cases ho : o = F.next
      · subst ho
        simp only [Function.update_self, Option.some.injEq] at hc
        exact Or.inl ⟨rfl, by rw [← hc, hlen]⟩
      · simp only [Function.update_of_ne ho] at hc
        exact Or.inr hc
    refine ⟨?_, ?_, hF.laminar, hF.numbered, hF.unique, hF.flight, hF.got_lt, ?_, ?_,
      hF.ahead_sent, hF.edge, hF.tidy⟩
    · intro o c o' c' hc hc' hlt
      rcases hcase o c hc with ⟨rfl, hl⟩ | hc <;> rcases hcase o' c' hc' with ⟨rfl, hl'⟩ | hc'
      · omega
      · have := (hS.chunk o' c' hc').2.1; omega
      · exact (hS.chunk o c hc).2.1
      · exact hF.apart o c o' c' hc hc' hlt
    · intro pn o bs o' c hs hc
      rcases hcase o' c hc with ⟨rfl, _⟩ | hc
      · exact Or.inl (Or.inl (hS.packet pn o bs hs).2.1)
      · exact hF.minimal pn o bs o' c hs hc
    · intro pn o bs c hg hs hc
      rcases hcase o c hc with ⟨rfl, _⟩ | hc
      · have h₁ := (hS.packet pn F.next bs hs).2.1
        have h₂ := hpos' pn _ bs hs
        omega
      · exact hF.acked pn o bs c hg hs hc
    · intro x hx hfree
      have hxn : x < F.next := by
        by_contra hge
        have h := hfree F.next _ (Function.update_self ..) (by omega)
        rw [hlen] at h
        dsimp only at hx
        omega
      apply hF.freed x hxn
      intro o c hc hox
      have hne : o ≠ F.next := by
        have := (hS.chunk o c hc).2.1
        have := hpos o c hc
        omega
      exact hfree o c (by simpa [Function.update_of_ne hne] using hc) hox
  | split o m c hc h0 hm =>
    have hcase : ∀ o' c', Function.update (Function.update F.chunks o (some (c.take m))) (o + m)
        (some (c.drop m)) o' = some c' → (o' = o + m ∧ c'.length = c.length - m) ∨
        (o' = o ∧ c'.length = m) ∨ (o' ≠ o ∧ o' ≠ o + m ∧ F.chunks o' = some c') := by
      intro o' c' hc'
      by_cases h₁ : o' = o + m
      · subst h₁
        simp only [Function.update_self, Option.some.injEq] at hc'
        exact Or.inl ⟨rfl, by rw [← hc', List.length_drop]⟩
      · by_cases h₂ : o' = o
        · subst h₂
          simp only [Function.update_of_ne h₁, Function.update_self, Option.some.injEq] at hc'
          exact Or.inr (Or.inl ⟨rfl, by rw [← hc', List.length_take]; omega⟩)
        · simp only [Function.update_of_ne h₁, Function.update_of_ne h₂] at hc'
          exact Or.inr (Or.inr ⟨h₂, h₁, hc'⟩)
    refine ⟨?_, ?_, hF.laminar, hF.numbered, hF.unique, hF.flight, hF.got_lt, ?_, ?_,
      hF.ahead_sent, hF.edge, hF.tidy⟩
    · intro a ca b cb ha hb hlt
      rcases hcase a ca ha with ⟨ea, la⟩ | ⟨ea, la⟩ | ⟨na, na', ha⟩ <;>
        rcases hcase b cb hb with ⟨eb, lb⟩ | ⟨eb, lb⟩ | ⟨nb, nb', hb⟩
      · omega
      · omega
      · have := hF.apart o c b cb hc hb (by omega); omega
      · omega
      · omega
      · have := hF.apart o c b cb hc hb (by omega); omega
      · rcases Nat.lt_or_ge a o with h | h
        · have := hF.apart a ca o c ha hc h; omega
        · have := hF.apart o c a ca hc ha (by omega); omega
      · have := hF.apart a ca o c ha hc (by omega); omega
      · exact hF.apart a ca b cb ha hb hlt
    · intro pn a bs b cb hs hb
      have hm' := hF.minimal pn a bs o c hs hc
      unfold Apart Inside at *
      rcases hcase b cb hb with ⟨eb, lb⟩ | ⟨eb, lb⟩ | ⟨_, _, hb⟩
      · omega
      · omega
      · exact hF.minimal pn a bs b cb hs hb
    · intro pn a bs ca hg hs ha x hx hxc
      rcases hcase a ca ha with ⟨ea, la⟩ | ⟨ea, la⟩ | ⟨_, _, ha⟩
      · subst ea
        exact absurd hs (hF.not_sent_inside hS hc h0 hm)
      · subst ea
        exact hF.acked pn a bs c hg hs hc x hx (by omega)
      · exact hF.acked pn a bs ca hg hs ha x hx hxc
    · intro x hx hfree
      apply hF.freed x hx
      intro a ca ha hax
      by_cases h₁ : a = o
      · subst h₁
        rw [hc] at ha
        cases ha
        have hl := hfree a (c.take m) (by
          dsimp only
          rw [Function.update_of_ne (by omega), Function.update_self]) hax
        have hr := hfree (a + m) (c.drop m) (Function.update_self ..)
        rw [List.length_take] at hl
        rw [List.length_drop] at hr
        omega
      · have h₂ : a ≠ o + m := by
          rintro rfl
          have := hF.apart o c _ ca hc ha (by omega)
          omega
        exact hfree a ca (by simpa [Function.update_of_ne h₁, Function.update_of_ne h₂] using ha) hax
  | transmit o c hc =>
    refine ⟨hF.apart, ?_, ?_, ?_, ?_, ?_, ?_, ?_, hF.freed, ?_, ?_, hF.tidy⟩
    · rintro pn a bs b cb (hs | ⟨rfl, rfl, rfl⟩) hb
      · exact hF.minimal pn a bs b cb hs hb
      · rcases Nat.lt_trichotomy a b with h | h | h
        · exact Or.inl (Or.inl (hF.apart a bs b cb hc hb h))
        · subst h
          change F.chunks a = some cb at hb
          rw [hc] at hb
          cases hb
          exact Or.inr ⟨Nat.le_refl _, Nat.le_refl _⟩
        · exact Or.inl (Or.inr (hF.apart b cb a bs hb hc h))
    · rintro pn a bs pn' b bs' (hs | ⟨rfl, rfl, rfl⟩) (hs' | ⟨rfl, rfl, rfl⟩)
      · exact hF.laminar pn a bs pn' b bs' hs hs'
      · rcases hF.minimal pn a bs b bs' hs hc with h | h
        · exact Or.inl h
        · exact Or.inr (Or.inl h)
      · rcases hF.minimal pn' b bs' a bs hs' hc with h | h
        · exact Or.inl h.symm
        · exact Or.inr (Or.inr h)
      · exact Or.inr (Or.inl ⟨Nat.le_refl _, Nat.le_refl _⟩)
    · rintro pn a bs (hs | ⟨rfl, -, -⟩)
      · exact Nat.lt_succ_of_lt (hF.numbered pn a bs hs)
      · exact Nat.lt_succ_self _
    · rintro pn a bs b bs' (hs | ⟨rfl, rfl, rfl⟩) (hs' | ⟨h, rfl, rfl⟩)
      · exact hF.unique pn a bs b bs' hs hs'
      · exact absurd (hF.numbered pn a bs hs) (by omega)
      · exact absurd (hF.numbered _ b bs' hs') (by omega)
      · exact ⟨rfl, rfl⟩
    · intro pn a ha
      by_cases h : pn = F.nextPn
      · subst h
        simp only [Function.update_self, Option.some.injEq] at ha
        subst ha
        exact ⟨c, Or.inr ⟨rfl, rfl, rfl⟩⟩
      · simp only [Function.update_of_ne h] at ha
        obtain ⟨bs, hs⟩ := hF.flight pn a ha
        exact ⟨bs, Or.inl hs⟩
    · intro pn hg
      exact Nat.lt_succ_of_lt (hF.got_lt pn hg)
    · rintro pn a bs ca hg (hs | ⟨rfl, rfl, rfl⟩) ha
      · exact hF.acked pn a bs ca hg hs ha
      · exact absurd (hF.got_lt _ hg) (by omega)
    · intro a bs ha
      obtain ⟨pn, hs⟩ := hF.ahead_sent a bs ha
      exact ⟨pn, Or.inl hs⟩
    · rcases hF.edge with h | ⟨pn, a, bs, hs, h⟩
      · exact Or.inl h
      · exact Or.inr ⟨pn, a, bs, Or.inl hs, h⟩
  | skip =>
    exact ⟨hF.apart, hF.minimal, hF.laminar,
      fun pn o bs h => Nat.lt_succ_of_lt (hF.numbered pn o bs h), hF.unique, hF.flight,
      fun pn h => Nat.lt_succ_of_lt (hF.got_lt pn h), hF.acked, hF.freed, hF.ahead_sent,
      hF.edge, hF.tidy⟩
  | ack pn o hf hg =>
    obtain ⟨bs, hs⟩ := hF.flight pn o hf
    have hcase : ∀ a c, Function.update F.chunks o none a = some c → F.chunks a = some c := by
      intro a c hc
      by_cases h : a = o
      · subst h; simp at hc
      · simpa [Function.update_of_ne h] using hc
    refine ⟨?_, ?_, hF.laminar, hF.numbered, hF.unique, ?_, hF.got_lt, ?_, ?_, hF.ahead_sent,
      hF.edge, hF.tidy⟩
    · intro a c b c' ha hb
      exact hF.apart a c b c' (hcase a c ha) (hcase b c' hb)
    · intro pn' a bs' b c h hb
      exact hF.minimal pn' a bs' b c h (hcase b c hb)
    · intro pn' a ha
      by_cases h : pn' = pn
      · subst h; simp at ha
      · exact hF.flight pn' a (by simpa [Function.update_of_ne h] using ha)
    · intro pn' a bs' c hg' hs' hc
      exact hF.acked pn' a bs' c hg' hs' (hcase a c hc)
    · intro x hx hfree
      by_cases hin : ∃ c, F.chunks o = some c ∧ o ≤ x ∧ x < o + c.length
      · obtain ⟨c, hc, h₁, h₂⟩ := hin
        exact hF.acked pn o bs c (hg trivial) hs hc x h₁ h₂
      · apply hF.freed x hx
        intro a c hc hax
        by_cases h : a = o
        · subst h
          by_contra hlt
          exact hin ⟨c, hc, hax, by omega⟩
        · exact hfree a c (by simpa [Function.update_of_ne h] using hc) hax
  | lose pn =>
    refine ⟨hF.apart, hF.minimal, hF.laminar, hF.numbered, hF.unique, ?_, hF.got_lt, hF.acked,
      hF.freed, hF.ahead_sent, hF.edge, hF.tidy⟩
    intro pn' a ha
    by_cases h : pn' = pn
    · subst h; simp at ha
    · exact hF.flight pn' a (by simpa [Function.update_of_ne h] using ha)
  | note pn hp =>
    obtain ⟨hlt, hns⟩ := hp trivial
    refine ⟨hF.apart, hF.minimal, hF.laminar, hF.numbered, hF.unique, hF.flight, ?_, ?_,
      hF.freed, hF.ahead_sent, hF.edge, hF.tidy⟩
    · rintro k (hk | rfl)
      · exact hF.got_lt k hk
      · exact hlt
    · rintro k o bs c (hk | rfl) hs hc
      · exact hF.acked k o bs c hk hs hc
      · exact absurd hs (hns o bs)
  | arriveInOrder pn k o bs hs hk ho ha =>
    obtain rfl := hk trivial
    subst ho
    have hin : F.handed.length + (F.held ++ bs).length = F.inOrder + bs.length := by
      simp only [inOrder, List.length_append]; omega
    have hkept := F.kept_append bs (fun j => F.got j ∨ j = k)
    refine ⟨hF.apart, hF.minimal, hF.laminar, hF.numbered, hF.unique, hF.flight, ?_, ?_, ?_,
      hF.ahead_sent, ?_, ?_⟩
    · rintro j (hj | rfl)
      · exact hF.got_lt j hj
      · exact hF.numbered j _ bs hs
    · rintro j a bs' c (hj | rfl) hs' hc x hx hxc
      · exact hkept x (hF.acked j a bs' c hj hs' hc x hx hxc)
      · obtain ⟨rfl, rfl⟩ := hF.unique j _ bs a bs' hs hs'
        have hle := hF.chunk_le hS hs hc
        refine Or.inl ?_
        change x < F.handed.length + (F.held ++ bs).length
        omega
    · intro x hx hfree
      exact hkept x (hF.freed x hx hfree)
    · exact Or.inr ⟨k, _, bs, hs, hin.symm⟩
    · intro a bs' ha' hlt
      change a < F.handed.length + (F.held ++ bs).length at hlt
      change a + bs'.length ≤ F.handed.length + (F.held ++ bs).length
      have hne : a ≠ F.inOrder := by
        rintro rfl
        change F.ahead F.inOrder = some bs' at ha'
        rw [ha] at ha'
        cases ha'
      rw [hin] at *
      exact hF.tidy_append hS hs a bs' ha' hne hlt
  | arriveAhead pn k o bs hs hk ho ha =>
    obtain rfl := hk trivial
    have hkept := F.kept_ahead o bs (fun j => F.got j ∨ j = k) ha
    have hcase : ∀ a c, Function.update F.ahead o (some bs) a = some c →
        (a = o ∧ c = bs) ∨ F.ahead a = some c := by
      intro a c hc
      by_cases h : a = o
      · subst h
        simp only [Function.update_self, Option.some.injEq] at hc
        exact Or.inl ⟨rfl, hc.symm⟩
      · exact Or.inr (by simpa [Function.update_of_ne h] using hc)
    refine ⟨hF.apart, hF.minimal, hF.laminar, hF.numbered, hF.unique, hF.flight, ?_, ?_, ?_,
      ?_, hF.edge, ?_⟩
    · rintro j (hj | rfl)
      · exact hF.got_lt j hj
      · exact hF.numbered j _ bs hs
    · rintro j a bs' c (hj | rfl) hs' hc x hx hxc
      · exact hkept x (hF.acked j a bs' c hj hs' hc x hx hxc)
      · obtain ⟨rfl, rfl⟩ := hF.unique j _ bs a bs' hs hs'
        have hle := hF.chunk_le hS hs hc
        exact Or.inr ⟨o, bs, Function.update_self .., hx, by omega⟩
    · intro x hx hfree
      exact hkept x (hF.freed x hx hfree)
    · intro a c hc
      rcases hcase a c hc with ⟨rfl, rfl⟩ | hc
      · exact ⟨k, hs⟩
      · exact hF.ahead_sent a c hc
    · intro a c hc hlt
      change a < F.inOrder at hlt
      rcases hcase a c hc with ⟨rfl, rfl⟩ | hc
      · omega
      · exact hF.tidy a c hc hlt
  | arriveStale pn k o bs hs hk ho =>
    obtain rfl := hk trivial
    refine ⟨hF.apart, hF.minimal, hF.laminar, hF.numbered, hF.unique, hF.flight, ?_, ?_,
      hF.freed, hF.ahead_sent, hF.edge, hF.tidy⟩
    · rintro j (hj | rfl)
      · exact hF.got_lt j hj
      · exact hF.numbered j _ bs hs
    · rintro j a bs' c (hj | rfl) hs' hc x hx hxc
      · exact hF.acked j a bs' c hj hs' hc x hx hxc
      · obtain ⟨rfl, rfl⟩ := hF.unique j _ bs a bs' hs hs'
        exact hF.covered_of_stale hS hc ho x hx hxc
  | drain bs ha =>
    obtain ⟨pn, hs⟩ := hF.ahead_sent _ bs ha
    have hin : F.handed.length + (F.held ++ bs).length = F.inOrder + bs.length := by
      simp only [inOrder, List.length_append]; omega
    have hkept := F.kept_drain bs ha
    have hcase : ∀ a c, Function.update F.ahead F.inOrder none a = some c →
        a ≠ F.inOrder ∧ F.ahead a = some c := by
      intro a c hc
      by_cases h : a = F.inOrder
      · subst h; simp at hc
      · exact ⟨h, by simpa [Function.update_of_ne h] using hc⟩
    refine ⟨hF.apart, hF.minimal, hF.laminar, hF.numbered, hF.unique, hF.flight, hF.got_lt, ?_,
      ?_, ?_, ?_, ?_⟩
    · intro j a bs' c hj hs' hc x hx hxc
      exact hkept x (hF.acked j a bs' c hj hs' hc x hx hxc)
    · intro x hx hfree
      exact hkept x (hF.freed x hx hfree)
    · intro a c hc
      exact hF.ahead_sent a c (hcase a c hc).2
    · exact Or.inr ⟨pn, _, bs, hs, hin.symm⟩
    · intro a c hc hlt
      change a < F.handed.length + (F.held ++ bs).length at hlt
      change a + c.length ≤ F.handed.length + (F.held ++ bs).length
      obtain ⟨hne, hc⟩ := hcase a c hc
      rw [hin] at *
      exact hF.tidy_append hS hs a c hc hne hlt
  | clear ha =>
    have hkept : F.Kept { F with ahead := fun _ => none } := by
      rintro x (hx | ⟨o, c, hc, h₁, h₂⟩)
      · exact Or.inl hx
      · have := ha o c hc
        exact Or.inl (by change x < F.inOrder; omega)
    refine ⟨hF.apart, hF.minimal, hF.laminar, hF.numbered, hF.unique, hF.flight, hF.got_lt, ?_,
      ?_, ?_, hF.edge, ?_⟩
    · intro j a bs' c hj hs' hc x hx hxc
      exact hkept x (hF.acked j a bs' c hj hs' hc x hx hxc)
    · intro x hx hfree
      exact hkept x (hF.freed x hx hfree)
    · intro a c hc
      simp at hc
    · intro a c hc
      simp at hc
  | hand n =>
    have hin : (F.handed ++ F.held.take n).length + (F.held.drop n).length = F.inOrder := by
      simp only [inOrder, List.length_append, List.length_take, List.length_drop]; omega
    have hcov : ∀ x, F.Covered x ↔
        ({ F with handed := F.handed ++ F.held.take n, held := F.held.drop n } : Flow β).Covered x := by
      intro x
      change (x < F.inOrder ∨ _) ↔ (x < (F.handed ++ F.held.take n).length + (F.held.drop n).length ∨ _)
      rw [hin]
    refine ⟨hF.apart, hF.minimal, hF.laminar, hF.numbered, hF.unique, hF.flight, hF.got_lt, ?_,
      ?_, hF.ahead_sent, ?_, ?_⟩
    · intro j a bs' c hj hs' hc x hx hxc
      exact (hcov x).mp (hF.acked j a bs' c hj hs' hc x hx hxc)
    · intro x hx hfree
      exact (hcov x).mp (hF.freed x hx hfree)
    · change (F.handed ++ F.held.take n).length + (F.held.drop n).length = 0 ∨ _
      change _ ∨ ∃ pn o bs, F.sent pn o bs ∧
        o + bs.length = (F.handed ++ F.held.take n).length + (F.held.drop n).length
      rw [hin]
      exact hF.edge
    · intro a c hc
      change a < (F.handed ++ F.held.take n).length + (F.held.drop n).length →
        a + c.length ≤ (F.handed ++ F.held.take n).length + (F.held.drop n).length
      rw [hin]
      exact hF.tidy a c hc
  | forget got hg =>
    exact ⟨hF.apart, hF.minimal, hF.laminar, hF.numbered, hF.unique, hF.flight,
      fun pn h => hF.got_lt pn (hg pn h),
      fun pn o bs c h => hF.acked pn o bs c (hg pn h), hF.freed, hF.ahead_sent, hF.edge, hF.tidy⟩

theorem Sound.steps {β : Type} {F G : Flow β} (hF : F.Sound) (hS : F.Safe)
    (hs : Relation.ReflTransGen (Step True) F G) : G.Sound := by
  induction hs with
  | refl => exact hF
  | tail hrun hstep ih => exact ih.step (hS.steps hrun) hstep

/-- Once every chunk is freed, and nothing waits where the receiver stands, the receiver has
all that was cut. -/
theorem Sound.complete {β : Type} {F : Flow β} (hF : F.Sound) (hS : F.Safe)
    (hfree : ∀ o, F.chunks o = none) (hquiet : F.ahead F.inOrder = none) :
    F.inOrder = F.next := by
  by_contra hne
  have hlt : F.inOrder < F.next := Nat.lt_of_le_of_ne hS.inOrder_le hne
  have hcov := hF.freed F.inOrder hlt (fun o c hc => by rw [hfree o] at hc; cases hc)
  rcases hcov with h | ⟨o, bs, ha, h₁, h₂⟩
  · omega
  · rcases Nat.lt_or_ge o F.inOrder with h | h
    · have := hF.tidy o bs ha h
      omega
    · obtain rfl : o = F.inOrder := by omega
      rw [hquiet] at ha
      cases ha

end Flow

end Delivery
