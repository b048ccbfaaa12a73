import Mathlib
import SeedTransport.Stream.Credit

set_option autoImplicit false

namespace SeedTransport.Stream

/-! How the chunks of an honest sender lie, what a receiver keeps of them, and what that comes
to: the bound at the end of `onChunk` against it. -/

/-! ### How chunks lie -/

/-- What a packet of the base size carries: where a longer chunk is split. -/
def baseRoom : Nat := basePacket - dataHeader

/-- Chunks, as offset and length: none longer than a packet carries; two lie apart, or the
later is the rest of the earlier, split at `baseRoom`. -/
structure Laid (P : Nat → Nat → Prop) : Prop where
  short : ∀ o l, P o l → l ≤ Purse.maxChunk
  apart : ∀ o l o' l', P o l → P o' l' → o < o' → o + l ≤ o' ∨ o' = o + baseRoom ∧ o' + l' ≤ o + l
  whole : ∀ o l l', P o l → P o l' → baseRoom < l → baseRoom < l' → l = l'

namespace Laid

variable {P Q : Nat → Nat → Prop}

theorem mono (h : Laid P) (hQ : ∀ o l, Q o l → P o l) : Laid Q :=
  ⟨fun o l hq => h.short o l (hQ o l hq),
    fun o l o' l' hq hq' => h.apart o l o' l' (hQ o l hq) (hQ o' l' hq'),
    fun o l l' hq hq' => h.whole o l l' (hQ o l hq) (hQ o l' hq')⟩

/-- A chunk behind all others. -/
theorem append (h : Laid P) {next n : Nat} (hend : ∀ o l, P o l → o + l ≤ next) (hn : n ≤ Purse.maxChunk) :
    Laid fun o l => P o l ∨ o = next ∧ l = n := by
  refine ⟨?_, ?_, ?_⟩
  · rintro o l (hp | ⟨-, rfl⟩)
    · exact h.short o l hp
    · exact hn
  · rintro o l o' l' (hp | ⟨rfl, rfl⟩) (hp' | ⟨rfl, rfl⟩) hlt
    · exact h.apart o l o' l' hp hp' hlt
    · exact .inl (hend o l hp)
    · have := hend o' l' hp'
      omega
    · omega
  · rintro o l l' (hp | ⟨rfl, rfl⟩) (hp' | ⟨ho, rfl⟩) hl hl'
    · exact h.whole o l l' hp hp' hl hl'
    · have := hend o l hp
      omega
    · have := hend o l' hp'
      omega
    · rfl

/-- A chunk and its two pieces. -/
theorem split (h : Laid P) {o n : Nat} (ho : P o n) (hn : baseRoom < n) :
    Laid fun x l => P x l ∨ x = o ∧ l = baseRoom ∨ x = o + baseRoom ∧ l = n - baseRoom := by
  have hmax := h.short o n ho
  have hbase : baseRoom = 1173 := rfl
  have hlong : Purse.maxChunk = 1425 := rfl
  -- No chunk reaches over the start of one that is split: it would be the rest of an earlier.
  have hclear : ∀ x l, P x l → x < o → x + l ≤ o := by
    intro x l hx hlt
    have hs := h.short x l hx
    rcases h.apart x l o n hx ho hlt with hle | ⟨hat, hle⟩
    · exact hle
    · omega
  have hbehind : ∀ x l, P x l → o < x → o + n ≤ x ∨ x = o + baseRoom := fun x l hx hlt =>
    (h.apart o n x l ho hx hlt).imp_right And.left
  refine ⟨?_, ?_, ?_⟩
  · rintro x l (hx | ⟨-, hl⟩ | ⟨-, hl⟩)
    · exact h.short x l hx
    · omega
    · omega
  · rintro x l x' l' (hx | ⟨hx, hl⟩ | ⟨hx, hl⟩) (hx' | ⟨hx', hl'⟩ | ⟨hx', hl'⟩) hlt
    · exact h.apart x l x' l' hx hx' hlt
    · have := hclear x l hx (hx' ▸ hlt)
      omega
    · rcases Nat.lt_trichotomy x o with hxo | hxo | hxo
      · have := hclear x l hx hxo
        omega
      · by_cases hl : baseRoom < l
        · have := h.whole o l n (hxo ▸ hx) ho hl hn
          omega
        · omega
      · have := hbehind x l hx hxo
        omega
    · have := hbehind x' l' hx' (hx ▸ hlt)
      omega
    · omega
    · omega
    · have := hbehind x' l' hx' (by omega)
      omega
    · omega
    · omega
  · rintro x l l' (hx | ⟨-, hl₁⟩ | ⟨-, hl₁⟩) (hx' | ⟨-, hl₂⟩ | ⟨-, hl₂⟩) hl hl'
    · exact h.whole x l l' hx hx' hl hl'
    all_goals omega

end Laid

namespace Purse

/-- A chunk still kept, or sent. -/
def Piece (p : Purse) (o l : Nat) : Prop :=
  (∃ c, p.chunks.get o = some c ∧ c.length = l) ∨ ∃ pn floor bs, .data pn o floor bs ∈ p.emitted ∧ bs.length = l

variable {input : Option Packet} {p p' : Purse}

theorem Fair.piece (h : Fair p) {o l : Nat} (hp : p.Piece o l) : o + l ≤ p.nextOffset ∧ l ≤ maxChunk := by
  rcases hp with ⟨c, hc, rfl⟩ | ⟨pn, floor, bs, hm, rfl⟩
  · exact h.chunk o c hc
  · exact h.sent pn o floor bs hm

/-- What goes out leaves the chunks: a DATA packet carries one kept. -/
theorem piece_append {q : Packet} {o l : Nat} (hq : ∀ pn o floor bs, q = .data pn o floor bs →
      p.chunks.get o = some bs) (h : ({ p with emitted := p.emitted ++ [q] } : Purse).Piece o l) : p.Piece o l := by
  rcases h with hc | ⟨pn, floor, bs, hm, rfl⟩
  · exact .inl hc
  · rcases List.mem_append.1 hm with hm | hm
    · exact .inr ⟨pn, floor, bs, hm, rfl⟩
    · exact .inl ⟨bs, hq pn o floor bs (List.mem_singleton.1 hm).symm, rfl⟩

theorem laid_split (hf : Fair p) (h : Laid p.Piece) {o : Nat} {c : Bytes} (hc : p.chunks.get o = some c)
    (hlt : p.packetBytes - dataHeader < c.length) :
    Laid ({ p with
      chunks := (p.chunks.set o (c.take (p.packetBytes - dataHeader))).set
        (o + (p.packetBytes - dataHeader)) (c.drop (p.packetBytes - dataHeader)) } : Purse).Piece := by
  have hlen := (hf.chunk o c hc).2
  have hm : p.packetBytes - dataHeader = baseRoom := by
    rcases hf.sized with hs | hs
    · rw [hs]
      rfl
    · rw [hs] at hlt
      exact absurd hlt (Nat.not_lt.2 hlen)
  rw [hm] at hlt ⊢
  refine (h.split (.inl ⟨c, hc, rfl⟩) hlt).mono fun x l hx => ?_
  rcases hx with ⟨c', hc', rfl⟩ | hs
  · rcases Ledger.TxFair.get_split hc' with ⟨rfl, rfl⟩ | ⟨rfl, rfl⟩ | hc'
    · exact .inr (.inr ⟨rfl, by rw [List.length_drop]⟩)
    · exact .inr (.inl ⟨rfl, by rw [List.length_take]; omega⟩)
    · exact .inl (.inl ⟨c', hc', rfl⟩)
  · exact .inl (.inr hs)

theorem laid_cut (hf : Fair p) (h : Laid p.Piece) {c : Bytes} (hroom : c.length ≤ p.packetBytes - dataHeader) :
    Laid ({ p with chunks := p.chunks.set p.nextOffset c, nextOffset := p.nextOffset + c.length } : Purse).Piece := by
  have hmax := (hf.cut hroom p.nextOffset c (OrdMap.get_set_self _ _ _)).2
  refine (h.append (fun o l hp => (hf.piece hp).1) hmax).mono fun x l hx => ?_
  rcases hx with ⟨c', hc', rfl⟩ | hs
  · simp only [OrdMap.get_set] at hc'
    split at hc'
    · rename_i hx
      obtain rfl := Option.some.inj hc'
      exact .inr ⟨hx, rfl⟩
    · exact .inl (.inl ⟨c', hc', rfl⟩)
  · exact .inl (.inr hs)

/-- However a sender cuts and splits, its chunks lie so. -/
theorem laid_step (hf : Fair p) (h : Laid p.Piece) (hs : Step input p p') : Laid p'.Piece := by
  cases hs with
  | split o c hc hlt => exact laid_split hf h hc hlt
  | cut c h0 hroom hcredit => exact laid_cut hf h hroom
  | transmit pn o floor c hc =>
    refine h.mono fun o l hp => piece_append ?_ hp
    rintro pn' o' floor' bs he
    cases he
    exact hc
  | acked o =>
    refine h.mono fun x l hx => ?_
    rcases hx with ⟨c, hc, rfl⟩ | hs
    · simp only [OrdMap.get_delete] at hc
      split at hc
      · cases hc
      · exact .inl ⟨c, hc, rfl⟩
    · exact .inr hs
  | say delay ranges => exact h.mono fun o l hp => piece_append (by simp) hp
  | probe pn => exact h.mono fun o l hp => piece_append (by simp) hp
  | close => exact h.mono fun o l hp => piece_append (by simp) hp
  | resize | credited | stop | overflow | arriveInOrder | arriveAhead | arriveStale | drain | clear | hand
    | double => exact h

theorem laid_steps (hf : Fair p) (h : Laid p.Piece) (hs : Steps input p p') : Laid p'.Piece := by
  induction hs with
  | refl => exact h
  | tail hrun hstep ih => exact laid_step (hf.steps hrun) ih hstep

end Purse

/-! ### What a receiver keeps of them -/

/-- Where each slice begins, the first at `base`. -/
def starts : Nat → List Bytes → List Nat
  | _, [] => []
  | base, b :: bs => base :: starts (base + b.length) bs

theorem length_starts (base : Nat) (bs : List Bytes) : (starts base bs).length = bs.length := by
  induction bs generalizing base with
  | nil => rfl
  | cons b bs ih => simp [starts, ih]

theorem starts_append (base : Nat) (bs : List Bytes) (b : Bytes) :
    starts base (bs ++ [b]) = starts base bs ++ [base + bs.flatten.length] := by
  induction bs generalizing base with
  | nil => simp [starts]
  | cons c bs ih => simp [starts, ih, Nat.add_assoc]

theorem mem_starts {base x : Nat} {bs : List Bytes} (hne : ∀ b ∈ bs, b ≠ []) (h : x ∈ starts base bs) :
    base ≤ x ∧ x < base + bs.flatten.length := by
  induction bs generalizing base with
  | nil => cases h
  | cons b bs ih =>
    have hpos := List.length_pos_iff.2 (hne b (by simp))
    simp only [List.flatten_cons, List.length_append]
    rcases List.mem_cons.1 h with rfl | h
    · omega
    · have := ih (fun b hb => hne b (List.mem_cons_of_mem _ hb)) h
      omega

theorem nodup_starts {base : Nat} {bs : List Bytes} (hne : ∀ b ∈ bs, b ≠ []) : (starts base bs).Nodup := by
  induction bs generalizing base with
  | nil => exact List.nodup_nil
  | cons b bs ih =>
    have hpos := List.length_pos_iff.2 (hne b (by simp))
    have hrest : ∀ b ∈ bs, b ≠ [] := fun b hb => hne b (List.mem_cons_of_mem _ hb)
    refine List.nodup_cons.2 ⟨fun hm => ?_, ih hrest⟩
    have := mem_starts hrest hm
    omega

/-- Taking from the front leaves the later slices where they began. -/
theorem starts_consume {base n x : Nat} {bs : List Bytes} (hn : n ≤ bs.flatten.length)
    (h : x ∈ (starts (base + n) (Pieces.consume n bs).2).tail) : x ∈ (starts base bs).tail := by
  induction bs generalizing base n with
  | nil =>
    have hz : n = 0 := by simpa using hn
    subst hz
    simpa [Pieces.consume] using h
  | cons b bs ih =>
    cases n with
    | zero => simpa [Pieces.consume] using h
    | succ n =>
      simp only [List.flatten_cons, List.length_append] at hn
      by_cases hb : b.length ≤ n + 1
      · have hsum : base + (n + 1) = base + b.length + (n + 1 - b.length) := by omega
        simp only [Pieces.consume, if_pos hb] at h
        rw [hsum] at h
        exact List.mem_of_mem_tail (ih (by omega) h)
      · have hsum : base + (n + 1) + (b.length - (n + 1)) = base + b.length := by omega
        simp only [Pieces.consume, if_neg hb, starts, List.tail_cons, List.length_drop] at h
        rw [hsum] at h
        exact h

theorem starts_push {base x : Nat} {q : Pieces} {b : Bytes} (h : x ∈ (starts base (q.push b).list).tail) :
    x ∈ (starts base q.list).tail ∨ x = base + q.bytes := by
  unfold Pieces.push at h
  split at h
  · exact .inl h
  · simp only [starts_append] at h
    cases hq : starts base q.list with
    | nil =>
      rw [hq] at h
      cases h
    | cons y ys =>
      rw [hq] at h
      simp only [List.cons_append, List.tail_cons, List.mem_append, List.mem_singleton] at h ⊢
      exact h

namespace Purse

/-- What a receiver has of the chunks `P`: each slice held past the first, and each chunk
waiting, is one; a chunk passed over is the rest of one that was split. -/
structure Shelved (P : Nat → Nat → Prop) (p : Purse) : Prop where
  ahead : ∀ o bs, p.ahead.get o = some bs → P o bs.length
  behind : ∀ o bs, p.ahead.get o = some bs → o < p.inOrder → bs.length ≤ maxChunk - baseRoom
  bytes : p.aheadBytes = p.ahead.sum fun e => dataHeader + e.2.length
  starts : ∀ x ∈ (starts p.taken p.held.list).tail, (∃ l, P x l) ∧ p.ahead.get x = none

variable {P Q : Nat → Nat → Prop} {input : Option Packet} {p p' : Purse}

theorem Shelved.mono (h : Shelved P p) (hQ : ∀ o l, P o l → Q o l) : Shelved Q p :=
  ⟨fun o bs ha => hQ _ _ (h.ahead o bs ha), h.behind, h.bytes, fun x hx =>
    ⟨(h.starts x hx).1.imp fun l hl => hQ x l hl, (h.starts x hx).2⟩⟩

/-- Only the sending half changed. -/
theorem Shelved.congr (h : Shelved P p) (ht : p'.taken = p.taken) (hh : p'.held = p.held)
    (ha : p'.ahead = p.ahead) (hb : p'.aheadBytes = p.aheadBytes) : Shelved P p' := by
  refine ⟨?_, ?_, ?_, ?_⟩
  · rw [ha]
    exact h.ahead
  · simp only [inOrder, ha, ht, hh]
    exact h.behind
  · rw [ha, hb]
    exact h.bytes
  · rw [ha, ht, hh]
    exact h.starts

/-- A chunk that comes in order passes over no other but its own rest. -/
theorem Shelved.passed (hP : Laid P) (h : Shelved P p) {bs : Bytes} (hbs : P p.inOrder bs.length)
    {o : Nat} {bs' : Bytes} (ha : p.ahead.get o = some bs') (hne : o ≠ p.inOrder)
    (hlt : o < p.inOrder + bs.length) : bs'.length ≤ maxChunk - baseRoom := by
  rcases Nat.lt_trichotomy o p.inOrder with hlo | heq | hhi
  · exact h.behind o bs' ha hlo
  · exact absurd heq hne
  · have hs := hP.short _ _ hbs
    rcases hP.apart _ _ o bs'.length hbs (h.ahead o bs' ha) hhi with hle | ⟨hat, hle⟩
    · omega
    · omega

theorem Shelved.step (hP : Laid P) (h : Shelved P p) (hs : Step input p p')
    (hi : ∀ pn o floor bs, input = some (.data pn o floor bs) → P o bs.length) : Shelved P p' := by
  have hbelow : ∀ x ∈ (SeedTransport.Stream.starts p.taken p.held.list).tail, x < p.inOrder := fun x hx =>
    (mem_starts p.held.nonempty (List.mem_of_mem_tail hx)).2
  cases hs with
  | arriveInOrder pn o floor bs he hcredit ho ha =>
    subst ho
    have hbs := hi pn _ floor bs he
    refine ⟨h.ahead, ?_, h.bytes, ?_⟩
    · intro o' bs' ha' hlt
      simp only [inOrder, Pieces.bytes_push, ← Nat.add_assoc] at hlt
      refine h.passed hP hbs ha' ?_ hlt
      rintro rfl
      simp only at ha'
      rw [ha] at ha'
      cases ha'
    · intro x hx
      rcases starts_push hx with hx | rfl
      · exact h.starts x hx
      · exact ⟨⟨_, hbs⟩, ha⟩
  | arriveAhead pn o floor bs he hcredit ho ha =>
    refine ⟨?_, ?_, ?_, ?_⟩
    · intro o' bs' ha'
      simp only [OrdMap.get_set] at ha'
      split at ha'
      · rename_i hoo
        obtain rfl := Option.some.inj ha'
        exact hoo ▸ hi pn o floor bs he
      · exact h.ahead o' bs' ha'
    · intro o' bs' ha' hlt
      simp only [OrdMap.get_set] at ha'
      split at ha'
      · rename_i hoo
        simp only [inOrder] at hlt ho
        omega
      · exact h.behind o' bs' ha' hlt
    · simp only [OrdMap.sum_set_new _ _ _ _ ha, h.bytes]
      push_cast
      ring
    · intro x hx
      have hx' := hbelow x hx
      refine ⟨(h.starts x hx).1, ?_⟩
      simp only [OrdMap.get_set]
      rw [if_neg (by omega)]
      exact (h.starts x hx).2
  | arriveStale pn o floor bs he hcredit => exact h.congr rfl rfl rfl rfl
  | drain next ha =>
    have hbs := h.ahead _ _ ha
    refine ⟨?_, ?_, ?_, ?_⟩
    · intro o' bs' ha'
      simp only [OrdMap.get_delete] at ha'
      split at ha'
      · cases ha'
      · exact h.ahead o' bs' ha'
    · intro o' bs' ha' hlt
      simp only [OrdMap.get_delete] at ha'
      split at ha'
      · cases ha'
      · rename_i hne
        simp only [inOrder, Pieces.bytes_push, ← Nat.add_assoc] at hlt
        exact h.passed hP hbs ha' hne hlt
    · have hsum := p.ahead.sum_delete (fun e => dataHeader + e.2.length) _ _ ha
      have hbytes := h.bytes
      simp only at hsum ⊢
      omega
    · intro x hx
      rcases starts_push hx with hx | rfl
      · refine ⟨(h.starts x hx).1, ?_⟩
        simp only [OrdMap.get_delete]
        split
        · rfl
        · exact (h.starts x hx).2
      · refine ⟨⟨_, hbs⟩, ?_⟩
        simp only [OrdMap.get_delete]
        exact if_pos rfl
  | clear =>
    refine ⟨?_, ?_, rfl, ?_⟩
    · intro o bs ha
      simp at ha
    · intro o bs ha
      simp at ha
    · intro x hx
      exact ⟨(h.starts x hx).1, by simp⟩
  | hand n he hn =>
    refine ⟨h.ahead, ?_, h.bytes, ?_⟩
    · intro o bs ha hlt
      refine h.behind o bs ha ?_
      simp only [inOrder, Pieces.bytes_take] at hlt ⊢
      omega
    · intro x hx
      exact h.starts x (starts_consume hn hx)
  | resize | split | cut | transmit | acked | credited | say | probe | close | stop | overflow | double =>
    exact h.congr rfl rfl rfl rfl

theorem Shelved.steps (hP : Laid P) (h : Shelved P p) (hs : Steps input p p')
    (hi : ∀ pn o floor bs, input = some (.data pn o floor bs) → P o bs.length) : Shelved P p' := by
  induction hs with
  | refl => exact h
  | tail _ hstep ih => exact ih.step hP hstep hi

/-! ### What that comes to -/

/-- The chunks that wait past what the reader has taken. -/
def waiting (p : Purse) : Finset (Nat × Bytes) := p.ahead.entries.toFinset.filter fun e => p.taken ≤ e.1

/-- The pieces left behind: in `ahead`, below what the reader has taken. -/
def stranded (p : Purse) : Nat := (p.ahead.keys.filter fun o => o < p.taken).length

/-- No two chunks waiting share more than a split's rest, so they fit the credit nearly as one
stream would. -/
theorem Shelved.cores (hP : Laid P) (h : Shelved P p) (hf : Fair p) :
    ∑ e ∈ p.waiting, min e.2.length baseRoom ≤ p.credit := by
  have hget : ∀ e ∈ p.waiting, p.ahead.get e.1 = some e.2 ∧ p.taken ≤ e.1 := by
    intro e he
    obtain ⟨hm, ht⟩ := Finset.mem_filter.1 he
    exact ⟨(OrdMap.get_eq_some _ _ _).2 (List.mem_toFinset.1 hm), ht⟩
  have hdisjoint : ∀ x ∈ p.waiting, ∀ y ∈ p.waiting, x ≠ y →
      Disjoint (Finset.Ico x.1 (x.1 + min x.2.length baseRoom))
        (Finset.Ico y.1 (y.1 + min y.2.length baseRoom)) := by
    intro x hx y hy hne
    obtain ⟨hx, -⟩ := hget x hx
    obtain ⟨hy, -⟩ := hget y hy
    have hkey : x.1 ≠ y.1 := by
      intro hk
      rw [hk, hy] at hx
      exact hne (Prod.ext hk (Option.some.inj hx).symm)
    rw [Finset.disjoint_left]
    intro k hkx hky
    rw [Finset.mem_Ico] at hkx hky
    rcases Nat.lt_or_gt_of_ne hkey with hlt | hlt
    · have := hP.apart _ _ _ _ (h.ahead _ _ hx) (h.ahead _ _ hy) hlt
      omega
    · have := hP.apart _ _ _ _ (h.ahead _ _ hy) (h.ahead _ _ hx) hlt
      omega
  have hsub : p.waiting.biUnion (fun e => Finset.Ico e.1 (e.1 + min e.2.length baseRoom)) ⊆
      Finset.Ico p.taken (p.taken + p.credit) := by
    intro k hk
    obtain ⟨e, he, hke⟩ := Finset.mem_biUnion.1 hk
    obtain ⟨ha, ht⟩ := hget e he
    have hend := hf.ahead _ _ ha
    have hfar := hf.far
    rw [Finset.mem_Ico] at hke ⊢
    omega
  have hcard := Finset.card_le_card hsub
  rw [Finset.card_biUnion hdisjoint] at hcard
  simpa using hcard

theorem entries_nodup (p : Purse) : p.ahead.entries.Nodup := List.Nodup.of_map Prod.fst p.ahead.nodup

/-- The keys of the entries that `f` picks. -/
theorem card_entries (p : Purse) (f : Nat → Prop) [DecidablePred f] :
    (p.ahead.entries.toFinset.filter fun e => f e.1).card = (p.ahead.keys.filter fun o => f o).length := by
  have hset : (p.ahead.entries.toFinset.filter fun e => f e.1) =
      (p.ahead.entries.filter fun e => f e.1).toFinset := by
    ext e
    simp
  rw [hset, List.toFinset_card_of_nodup (p.entries_nodup.filter _), OrdMap.keys, List.filter_map, List.length_map]
  rfl

theorem card_waiting (p : Purse) : p.waiting.card = (p.ahead.keys.filter fun o => p.taken ≤ o).length :=
  p.card_entries fun o => p.taken ≤ o

theorem card_stranded (p : Purse) :
    (p.ahead.entries.toFinset.filter fun e => ¬p.taken ≤ e.1).card = p.stranded := by
  rw [p.card_entries fun o => ¬p.taken ≤ o]
  simp [stranded]

/-- The packet bytes of what is in `ahead`: a header each, the stream once and a split's rests,
and the pieces left behind. -/
theorem Shelved.weight (hP : Laid P) (h : Shelved P p) (hf : Fair p) :
    1173 * p.aheadBytes ≤ (1173 * 27 * p.waiting.card + 1425 * p.credit + 1173 * 279 * p.stranded : Nat) := by
  have hbase : baseRoom = 1173 := rfl
  have hlong : maxChunk = 1425 := rfl
  have hheader : dataHeader = 27 := rfl
  have hget : ∀ e ∈ p.ahead.entries.toFinset, p.ahead.get e.1 = some e.2 := fun e he =>
    (OrdMap.get_eq_some _ _ _).2 (List.mem_toFinset.1 he)
  have hsum : p.ahead.sum (fun e => dataHeader + e.2.length) =
      ∑ e ∈ p.ahead.entries.toFinset, (dataHeader + e.2.length) :=
    (List.sum_toFinset _ p.entries_nodup).symm
  have hparts := Finset.sum_filter_add_sum_filter_not p.ahead.entries.toFinset (fun e => p.taken ≤ e.1)
    fun e => dataHeader + e.2.length
  have hwait : 1173 * ∑ e ∈ p.waiting, (dataHeader + e.2.length) ≤
      1173 * 27 * p.waiting.card + 1425 * ∑ e ∈ p.waiting, min e.2.length baseRoom := by
    rw [Finset.mul_sum, Finset.mul_sum, Finset.card_eq_sum_ones, Finset.mul_sum, ← Finset.sum_add_distrib]
    refine Finset.sum_le_sum fun e he => ?_
    have hshort := hP.short _ _ (h.ahead _ _ (hget e (Finset.mem_filter.1 he).1))
    omega
  have hleft : ∑ e ∈ p.ahead.entries.toFinset.filter (fun e => ¬p.taken ≤ e.1), (dataHeader + e.2.length) ≤
      p.stranded * 279 := by
    rw [← card_stranded, ← smul_eq_mul]
    refine Finset.sum_le_card_nsmul _ _ _ fun e he => ?_
    obtain ⟨hm, hlt⟩ := Finset.mem_filter.1 he
    have hbehind := h.behind _ _ (hget e hm) (by
      simp only [inOrder]
      omega)
    omega
  have hcores := h.cores hP hf
  have hbytes := h.bytes
  unfold waiting at hwait hcores ⊢
  omega

/-- Slices and chunks, counted: each but the first held begins a chunk of its own. -/
theorem Shelved.count (h : Shelved P p) {O : List Nat} (hO : ∀ o l, P o l → o ∈ O) :
    p.held.slices + p.ahead.size ≤ 1 + (O.filter fun o => p.taken ≤ o).dedup.length + p.stranded ∧
      p.waiting.card ≤ (O.filter fun o => p.taken ≤ o).dedup.length := by
  have hkeys : ∀ o ∈ p.ahead.keys, o ∈ O := by
    intro o ho
    obtain ⟨bs, hbs⟩ := (OrdMap.mem_keys _ _).1 ho
    exact hO o _ (h.ahead o bs hbs)
  have hnodup : p.ahead.keys.Nodup := p.ahead.nodup
  have hall : ((SeedTransport.Stream.starts p.taken p.held.list).tail ++
      p.ahead.keys.filter fun o => p.taken ≤ o).Nodup := by
    refine List.nodup_append.2 ⟨(nodup_starts p.held.nonempty).sublist (List.tail_sublist _),
      hnodup.filter _, fun x hx y hy hxy => ?_⟩
    subst hxy
    have hnone := (h.starts x hx).2
    exact (OrdMap.get_eq_none _ _).1 hnone (List.mem_filter.1 hy).1
  have hsub : ((SeedTransport.Stream.starts p.taken p.held.list).tail ++
      p.ahead.keys.filter fun o => p.taken ≤ o) ⊆ (O.filter fun o => p.taken ≤ o).dedup := by
    intro x hx
    rw [List.mem_dedup, List.mem_filter]
    rcases List.mem_append.1 hx with hx | hx
    · obtain ⟨⟨l, hl⟩, -⟩ := h.starts x hx
      exact ⟨hO x l hl, by simpa using (mem_starts p.held.nonempty (List.mem_of_mem_tail hx)).1⟩
    · obtain ⟨hk, ht⟩ := List.mem_filter.1 hx
      exact ⟨hkeys x hk, ht⟩
  have hle := (hall.subperm hsub).length_le
  have hsize : p.ahead.size = (p.ahead.keys.filter fun o => p.taken ≤ o).length + p.stranded := by
    have hsplit := List.length_eq_length_filter_add (l := p.ahead.keys) fun o => decide (p.taken ≤ o)
    have hkl : p.ahead.keys.length = p.ahead.size := List.length_map _
    have hst : p.stranded = (p.ahead.keys.filter fun o => !decide (p.taken ≤ o)).length := by
      unfold stranded
      congr 2
      funext o
      rw [← decide_not]
      exact decide_eq_decide.2 Nat.not_le.symm
    omega
  have hslices : p.held.slices ≤ (SeedTransport.Stream.starts p.taken p.held.list).tail.length + 1 := by
    rw [List.length_tail, length_starts]
    simp only [Pieces.slices]
    omega
  rw [List.length_append] at hle
  rw [card_waiting]
  omega

/-- Few enough chunks past the reader, and few enough left behind, keep the bound. -/
theorem Shelved.fits (hP : Laid P) (h : Shelved P p) (hf : Fair p) {O : List Nat} (hO : ∀ o l, P o l → o ∈ O)
    (hroom : (O.filter fun o => p.taken ≤ o).dedup.length + 3 * p.stranded < 2 * p.credit / minChunk) :
    ¬p.Overflows := by
  obtain ⟨hcount, hcard⟩ := h.count hO
  have hweight := h.weight hP hf
  have hmin : minChunk = 256 := rfl
  rw [hmin] at hroom
  unfold Overflows
  rw [hmin]
  rintro (hbytes | hslices)
  · omega
  · omega

/-- Only a DATA packet fails the bound. -/
theorem Steps.kept (hs : Steps input p p') (hi : ∀ pn o floor bs, input ≠ some (.data pn o floor bs))
    (hp : p.cause ≠ some .overflow) : p'.cause ≠ some .overflow := by
  induction hs with
  | refl => exact hp
  | tail _ hstep ih =>
    cases hstep with
    | overflow pn o floor bs he => exact absurd he (hi pn o floor bs)
    | stop why hw => simpa using hw
    | resize | split | cut | transmit | acked | credited | say | probe | close | arriveInOrder | arriveAhead
      | arriveStale | drain | clear | hand | double => exact ih

/-- While a packet is taken in, the reader takes nothing and nothing is left behind. -/
structure Still (p p' : Purse) : Prop where
  taken : p'.taken = p.taken
  credit : p'.credit = p.credit
  stranded : p'.stranded ≤ p.stranded

theorem Still.step (hs : Step input p p') (hi : input ≠ none) : Still p p' := by
  cases hs with
  | arriveAhead pn o floor bs he hcredit ho ha =>
    refine ⟨rfl, rfl, ?_⟩
    have hlt : ¬o < p.taken := by
      simp only [inOrder] at ho
      omega
    have hkeys : (p.ahead.set o bs).keys = p.ahead.keys ++ [o] := by
      simp [OrdMap.keys, OrdMap.entries_set_new _ _ _ ha]
    change ((p.ahead.set o bs).keys.filter fun x => x < p.taken).length ≤ _
    rw [hkeys, List.filter_append]
    simp [Purse.stranded, hlt]
  | drain next ha =>
    refine ⟨rfl, rfl, ?_⟩
    exact ((OrdMap.keys_delete_sublist _ _).filter _).length_le
  | clear => exact ⟨rfl, rfl, Nat.zero_le _⟩
  | hand n he hn => exact absurd he hi
  | double he => exact absurd he hi
  | resize | split | cut | transmit | acked | credited | say | probe | close | stop | overflow | arriveInOrder
    | arriveStale => exact ⟨rfl, rfl, Nat.le_refl _⟩

/-- A packet that finds room does not fail the bound. -/
theorem Steps.roomy (hs : Steps input p p') (hP : Laid P) (h : Shelved P p) (hf : Fair p)
    (hi : ∀ pn o floor bs, input = some (.data pn o floor bs) → P o bs.length) (hne : input ≠ none)
    {O : List Nat} (hO : ∀ o l, P o l → o ∈ O)
    (hroom : (O.filter fun o => p.taken ≤ o).dedup.length + 3 * p.stranded < 2 * p.credit / minChunk)
    (hp : p.cause ≠ some .overflow) : Still p p' ∧ p'.cause ≠ some .overflow := by
  induction hs with
  | refl => exact ⟨⟨rfl, rfl, Nat.le_refl _⟩, hp⟩
  | tail hrun hstep ih =>
    rename_i q q'
    obtain ⟨hstill, hkept⟩ := ih
    have hnext := Still.step hstep hne
    refine ⟨⟨hnext.taken.trans hstill.taken, hnext.credit.trans hstill.credit,
      hnext.stranded.trans hstill.stranded⟩, ?_⟩
    cases hstep with
    | overflow pn o floor bs he hover =>
      refine absurd hover ((h.steps hP hrun hi).fits hP (hf.steps hrun) hO ?_)
      have := hstill.stranded
      rw [hstill.taken, hstill.credit]
      omega
    | stop why hw => simpa using hw
    | resize | split | cut | transmit | acked | credited | say | probe | close | arriveInOrder | arriveAhead
      | arriveStale | drain | clear | hand | double => exact hkept

end Purse

end SeedTransport.Stream
