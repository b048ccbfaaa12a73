import Mathlib
import SeedTransport.Stream.Numbers

set_option autoImplicit false

namespace SeedTransport.Stream

/-! The offsets a sender keeps: its chunks and what was acked tile what it has sent, and the
list that finds the oldest chunk stays in order through splits, acks and compaction. -/

/-- Whether a range, an offset and a length, holds offset `x`. -/
def covers (x : Nat) (r : Nat × Nat) : Bool := decide (r.1 ≤ x ∧ x < r.1 + r.2)

/-- Each offset below `n` lies in exactly one of the ranges, and none other in any. -/
def Tiles (rs : List (Nat × Nat)) (n : Nat) : Prop :=
  ∀ x, rs.countP (covers x) = if x < n then 1 else 0

/-- The ranges of the chunks, in the order they were first set. -/
def spans (chunks : OrdMap Nat Bytes) : List (Nat × Nat) :=
  chunks.entries.map (fun e => (e.1, e.2.length))

/-- What a chunk counts toward offset `x`. -/
def weigh (x : Nat) (e : Nat × Bytes) : Nat := if covers x (e.1, e.2.length) then 1 else 0

theorem countP_spans (chunks : OrdMap Nat Bytes) (x : Nat) :
    (spans chunks).countP (covers x) = chunks.sum (weigh x) := by
  unfold spans OrdMap.sum
  induction chunks.entries with
  | nil => rfl
  | cons e es ih =>
    rw [List.map_cons, List.countP_cons, ih, List.map_cons, List.sum_cons, Nat.add_comm]
    rfl

/-- The books of what was written, sent and listed. -/
structure Listed (tx : Sending) : Prop where
  sorted : tx.sentOffsets.Pairwise (· < ·)
  head : tx.sentHead ≤ tx.sentOffsets.length
  below : ∀ o ∈ tx.sentOffsets, o < tx.nextOffset
  chunk : ∀ o c, tx.chunks.get o = some c → c ≠ [] ∧ o + c.length ≤ tx.nextOffset
  listed : ∀ o c, tx.chunks.get o = some c → o ∈ tx.sentOffsets.drop tx.sentHead
  spaced : ∀ o c, tx.chunks.get o = some c → ∀ x ∈ tx.sentOffsets, o < x → o + c.length ≤ x
  unsent : tx.nextOffset + tx.unsent.bytes = tx.written
  held : ∀ o c, tx.chunks.get o = some c → tx.written ≤ o + maxBuffered
  kept : tx.written ≤ tx.nextOffset + maxBuffered
  sized : Ledger.Sized tx.packetBytes

/-- The chunks an ack took out of `tx`, leaving `tx'`. -/
def took (tx tx' : Sending) : List (Nat × Nat) :=
  spans (tx.chunks.restrict (fun o => !tx'.chunks.has o))

/-- A change that leaves the chunks and the list alone. -/
structure Sending.Still (tx tx' : Sending) : Prop where
  chunks : tx'.chunks = tx.chunks
  sentOffsets : tx'.sentOffsets = tx.sentOffsets
  sentHead : tx'.sentHead = tx.sentHead
  nextOffset : tx'.nextOffset = tx.nextOffset
  written : tx'.written = tx.written
  unsent : tx'.unsent = tx.unsent
  sized : Ledger.Sized tx.packetBytes → Ledger.Sized tx'.packetBytes

namespace Sending

theorem Still.refl (tx : Sending) : Still tx tx := ⟨rfl, rfl, rfl, rfl, rfl, rfl, id⟩

theorem Still.trans {tx tx' tx'' : Sending} (h : Still tx tx') (h' : Still tx' tx'') :
    Still tx tx'' where
  chunks := h'.chunks.trans h.chunks
  sentOffsets := h'.sentOffsets.trans h.sentOffsets
  sentHead := h'.sentHead.trans h.sentHead
  nextOffset := h'.nextOffset.trans h.nextOffset
  written := h'.written.trans h.written
  unsent := h'.unsent.trans h.unsent
  sized := h'.sized ∘ h.sized

theorem clearSuspects_still (tx : Sending) (ranges : List (Nat × Nat)) :
    Still tx (tx.clearSuspects ranges) := by
  unfold clearSuspects
  dsimp only
  split
  · split <;> exact ⟨rfl, rfl, rfl, rfl, rfl, rfl, id⟩
  · exact ⟨rfl, rfl, rfl, rfl, rfl, rfl, id⟩

theorem sample_still (tx : Sending) (latest delay : ℚ) : Still tx (tx.sample latest delay) := by
  unfold sample
  split <;> exact ⟨rfl, rfl, rfl, rfl, rfl, rfl, id⟩

theorem learns_still (tx : Sending) (now : ℚ) (delay : Nat) (largest : Int) (newest : Option Flight)
    (ranges : List (Nat × Nat)) : Still tx (tx.learns now delay largest newest ranges) := by
  have h₁ := clearSuspects_still tx ranges
  have h₂ : Still tx { tx.clearSuspects ranges with
      largestAcked := max (tx.clearSuspects ranges).largestAcked largest }.advanceOldest :=
    h₁.trans ⟨rfl, rfl, rfl, rfl, rfl, rfl, id⟩
  unfold learns
  cases newest with
  | none => exact h₂
  | some f => exact h₂.trans (sample_still _ _ _)

theorem scanPacket_still (t delay persistence : ℚ) (a : LossScan) (pn : Nat) :
    Still a.tx (scanPacket t delay persistence a pn).tx := by
  unfold scanPacket
  split
  · exact Still.refl _
  · split
    · dsimp only
      split_ifs <;> exact ⟨rfl, rfl, rfl, rfl, rfl, rfl, id⟩
    · exact ⟨rfl, rfl, rfl, rfl, rfl, rfl, id⟩

theorem scanPackets_still (t delay persistence : ℚ) (pns : List Nat) (a : LossScan) :
    Still a.tx (pns.foldl (scanPacket t delay persistence) a).tx := by
  induction pns generalizing a with
  | nil => exact Still.refl _
  | cons pn pns ih => exact (scanPacket_still t delay persistence a pn).trans (ih _)

theorem cutWindow_still (t : ℚ) (a : LossScan) : Still a.tx (cutWindow t a) := by
  obtain ⟨_, _, _, _, _, he⟩ := cutWindow_rest t a
  rw [he]
  exact ⟨rfl, rfl, rfl, rfl, rfl, rfl, id⟩

theorem advanceOldest_still (tx : Sending) : Still tx tx.advanceOldest :=
  ⟨rfl, rfl, rfl, rfl, rfl, rfl, id⟩

theorem detectLoss_still (tx : Sending) (t : ℚ) : Still tx (tx.detectLoss t) := by
  have h₁ : Still tx (advanceOldest { tx with lossTime := ⊤ }) := ⟨rfl, rfl, rfl, rfl, rfl, rfl, id⟩
  unfold detectLoss
  dsimp only
  exact ((h₁.trans (scanPackets_still t _ _ _ { tx := _ })).trans (cutWindow_still t _)).trans
    (advanceOldest_still _)

theorem rerouted_still (tx : Sending) (now rttMs : ℚ) : Still tx (tx.rerouted now rttMs) := by
  have h := sample_still { tx with
    window := initialWindow, threshold := ⊤, recoveryStart := (now : ℚ), undo := none,
    suspects := [], minRtt := ⊤ } rttMs 0
  exact ⟨h.chunks, h.sentOffsets, h.sentHead, h.nextOffset, h.written, h.unsent, fun _ => Or.inl rfl⟩

theorem timeout_still (tx : Sending) : Still tx tx.timeout := by
  unfold timeout
  dsimp only
  split
  · exact ⟨rfl, rfl, rfl, rfl, rfl, rfl, fun _ => Or.inl rfl⟩
  · exact ⟨rfl, rfl, rfl, rfl, rfl, rfl, id⟩

end Sending

namespace Listed

variable {tx : Sending}

theorem still {tx' : Sending} (h : Listed tx) (hs : tx.Still tx') : Listed tx' := by
  obtain ⟨h₁, h₂, h₃, h₄, h₅, h₆, h₇⟩ := hs
  refine ⟨?_, ?_, ?_, ?_, ?_, ?_, ?_, ?_, ?_, h₇ h.sized⟩ <;> simp only [h₁, h₂, h₃, h₄, h₅, h₆]
  · exact h.sorted
  · exact h.head
  · exact h.below
  · exact h.chunk
  · exact h.listed
  · exact h.spaced
  · exact h.unsent
  · exact h.held
  · exact h.kept

/-- Chunks only leave. -/
theorem fewer (h : Listed tx) {tx' : Sending}
    (hc : ∀ o c, tx'.chunks.get o = some c → tx.chunks.get o = some c)
    (h₂ : tx'.sentOffsets = tx.sentOffsets) (h₃ : tx'.sentHead = tx.sentHead)
    (h₄ : tx'.nextOffset = tx.nextOffset) (h₅ : tx'.written = tx.written)
    (h₆ : tx'.unsent = tx.unsent) (h₇ : tx'.packetBytes = tx.packetBytes) : Listed tx' := by
  refine ⟨?_, ?_, ?_, ?_, ?_, ?_, ?_, ?_, ?_, ?_⟩ <;> simp only [h₂, h₃, h₄, h₅, h₆, h₇]
  · exact h.sorted
  · exact h.head
  · exact h.below
  · exact fun o c ho => h.chunk o c (hc o c ho)
  · exact fun o c ho => h.listed o c (hc o c ho)
  · exact fun o c ho => h.spaced o c (hc o c ho)
  · exact h.unsent
  · exact fun o c ho => h.held o c (hc o c ho)
  · exact h.kept
  · exact h.sized

theorem room_pos (h : Listed tx) : 0 < tx.packetBytes - dataHeader := by
  rcases h.sized with e | e <;> rw [e] <;> decide

/-- Two chunks do not overlap. -/
theorem disjoint (h : Listed tx) {o o' : Nat} {c c' : Bytes} (hc : tx.chunks.get o = some c)
    (hc' : tx.chunks.get o' = some c') (hlt : o < o') : o + c.length ≤ o' :=
  h.spaced o c hc o' (List.mem_of_mem_drop (h.listed o' c' hc')) hlt

/-- No chunk starts inside another. -/
theorem inside_none (h : Listed tx) {o m : Nat} {c : Bytes} (hc : tx.chunks.get o = some c)
    (h0 : 0 < m) (hm : m < c.length) : tx.chunks.get (o + m) = none := by
  rw [Option.eq_none_iff_forall_ne_some]
  intro c' hc'
  have := h.disjoint hc hc' (by omega)
  omega

/-- `buffered` only moves past what is acked. -/
theorem oldestChunk (h : Listed tx) : Listed tx.oldestChunk.1 := by
  have hsub : tx.oldestChunk.1.sentOffsets.Sublist tx.sentOffsets := by
    unfold Sending.oldestChunk
    dsimp only
    split
    · exact List.drop_sublist _ _
    · exact List.Sublist.refl _
  obtain ⟨offsets, head, he, hle, -, hkeep, -⟩ := Sending.oldestChunk_spec tx h.head
  rw [he] at hsub ⊢
  dsimp only at hsub
  refine ⟨h.sorted.sublist hsub, hle, fun o ho => h.below o (hsub.subset ho), h.chunk, ?_,
    fun o c ho x hx => h.spaced o c ho x (hsub.subset hx), h.unsent, h.held, h.kept, h.sized⟩
  intro o c ho
  have ho : tx.chunks.get o = some c := ho
  exact hkeep o (by rw [ho]; exact Option.some_ne_none c) (h.listed o c ho)

/-- The oldest chunk is the least offset not acked. -/
theorem oldest_least (h : Listed tx) :
    (∀ o, tx.oldestChunk.2 = some o → (∃ c, tx.chunks.get o = some c) ∧
      ∀ o' c', tx.chunks.get o' = some c' → o ≤ o') ∧
    (tx.oldestChunk.2 = none → ∀ o, tx.chunks.get o = none) := by
  have hsorted := h.oldestChunk.sorted
  obtain ⟨offsets, head, he, hle, hhead, hkeep, hfound⟩ := Sending.oldestChunk_spec tx h.head
  rw [he] at hsorted
  have hin : ∀ o c, tx.chunks.get o = some c → o ∈ offsets.drop head := fun o c ho =>
    hkeep o (by rw [ho]; exact Option.some_ne_none c) (h.listed o c ho)
  have hdrop : (offsets.drop head).Pairwise (· < ·) := hsorted.sublist (List.drop_sublist _ _)
  constructor
  · intro o ho
    rw [hhead] at ho
    refine ⟨hfound o ho, fun o' c' ho' => ?_⟩
    obtain ⟨rest, hrest⟩ := List.head?_eq_some_iff.mp ho
    have hmem := hin o' c' ho'
    rw [hrest] at hdrop hmem
    rcases List.mem_cons.mp hmem with rfl | hmem
    · exact Nat.le_refl _
    · exact Nat.le_of_lt (List.rel_of_pairwise_cons hdrop hmem)
  · intro hnone o
    rw [hhead] at hnone
    rw [Option.eq_none_iff_forall_ne_some]
    intro c hc
    have hmem := hin o c hc
    rw [List.head?_eq_none_iff.mp hnone] at hmem
    cases hmem

/-- `buffered` is what was written past the least offset not acked. -/
theorem buffered_eq (h : Listed tx) : tx.buffered.2 = tx.written - tx.oldestChunk.2.getD tx.nextOffset ∧
    tx.oldestChunk.2.getD tx.nextOffset ≤ tx.written ∧
    tx.written ≤ tx.oldestChunk.2.getD tx.nextOffset + maxBuffered := by
  have hnext := h.unsent
  refine ⟨rfl, ?_⟩
  cases ho : tx.oldestChunk.2 with
  | none =>
    rw [Option.getD_none]
    exact ⟨by omega, h.kept⟩
  | some o =>
    obtain ⟨⟨c, hc⟩, -⟩ := h.oldest_least.1 o ho
    have hend := (h.chunk o c hc).2
    rw [Option.getD_some]
    exact ⟨by omega, h.held o c hc⟩

/-- Where `fit` lists the rest of a split chunk: right behind the chunk. -/
theorem insertAfter_eq {offsets : List Nat} {head o : Nat} (rest : Nat) (ho : o ∈ offsets.drop head) :
    ∃ before after, offsets = before ++ o :: after ∧ head ≤ before.length ∧
      Sending.insertAfter offsets head o rest = before ++ o :: rest :: after := by
  unfold Sending.insertAfter
  cases hk : (offsets.drop head).idxOf? o with
  | none => exact absurd ho (List.idxOf?_eq_none_iff.mp hk)
  | some k =>
    obtain ⟨hlt, hget, -⟩ := List.idxOf?_eq_some_iff.mp hk
    rw [List.length_drop] at hlt
    rw [List.getElem_drop] at hget
    have hget : offsets[head + k] = o := by simpa using hget
    have hcut : offsets.drop (head + k) = o :: offsets.drop (head + k + 1) := by
      rw [List.drop_eq_getElem_cons (by omega), hget]
    refine ⟨offsets.take (head + k), offsets.drop (head + k + 1), ?_, ?_, ?_⟩
    · rw [← hcut, List.take_append_drop]
    · rw [List.length_take]
      omega
    · dsimp only
      rw [List.take_succ_eq_append_getElem (by omega), hget, List.append_assoc]
      rfl

/-- A split lists the rest of a chunk between the chunk and what was cut after it. -/
theorem fit (h : Listed tx) {o : Nat} {c : Bytes} (hc : tx.chunks.get o = some c) :
    Listed (tx.fit o c) := by
  have hroom := h.room_pos
  unfold Sending.fit
  dsimp only
  split
  · exact h
  · rename_i hlong
    generalize hm : tx.packetBytes - dataHeader = m at hroom hlong
    have hlt : m < c.length := by omega
    obtain ⟨before, after, hlist, hhead, hinsert⟩ := insertAfter_eq (o + m) (h.listed o c hc)
    have hsorted : (before ++ o :: after).Pairwise (· < ·) := hlist ▸ h.sorted
    obtain ⟨hb, ha, hba⟩ := List.pairwise_append.mp hsorted
    obtain ⟨hoa, ha⟩ := List.pairwise_cons.mp ha
    have hspace : ∀ x ∈ after, o + c.length ≤ x := fun x hx => h.spaced o c hc x
      (by rw [hlist]; exact List.mem_append_right _ (List.mem_cons_of_mem _ hx)) (hoa x hx)
    have hbo : ∀ x ∈ before, x < o := fun x hx => hba x hx o List.mem_cons_self
    have hend := (h.chunk o c hc).2
    have hsub : ∀ x, x ∈ Sending.insertAfter tx.sentOffsets tx.sentHead o (o + m) ↔
        x = o + m ∨ x ∈ tx.sentOffsets := by
      intro x
      rw [hinsert, hlist]
      simp only [List.mem_append, List.mem_cons]
      tauto
    have hget : ∀ k d, ((tx.chunks.set o (c.take m)).set (o + m) (c.drop m)).get k = some d →
        (k = o + m ∧ d = c.drop m) ∨ (k = o ∧ d = c.take m) ∨
          (k ≠ o ∧ k ≠ o + m ∧ tx.chunks.get k = some d) := by
      intro k d hk
      rw [OrdMap.get_set, OrdMap.get_set] at hk
      split at hk
      · rename_i hkm
        exact Or.inl ⟨hkm, (Option.some.inj hk).symm⟩
      · rename_i hkm
        split at hk
        · rename_i hko
          exact Or.inr (Or.inl ⟨hko, (Option.some.inj hk).symm⟩)
        · rename_i hko
          exact Or.inr (Or.inr ⟨hko, hkm, hk⟩)
    refine ⟨?_, ?_, ?_, ?_, ?_, ?_, h.unsent, ?_, h.kept, h.sized⟩
    · show (Sending.insertAfter tx.sentOffsets tx.sentHead o (o + m)).Pairwise (· < ·)
      rw [hinsert]
      refine List.pairwise_append.mpr ⟨hb, List.pairwise_cons.mpr ⟨?_, List.pairwise_cons.mpr ⟨?_, ha⟩⟩, ?_⟩
      · intro x hx
        rcases List.mem_cons.mp hx with rfl | hx
        · omega
        · exact hoa x hx
      · intro x hx
        have := hspace x hx
        omega
      · intro x hx y hy
        have := hbo x hx
        rcases List.mem_cons.mp hy with rfl | hy
        · exact this
        · rcases List.mem_cons.mp hy with rfl | hy
          · omega
          · have := hspace y hy
            omega
    · show tx.sentHead ≤ (Sending.insertAfter tx.sentOffsets tx.sentHead o (o + m)).length
      rw [hinsert, List.length_append]
      omega
    · intro x hx
      rcases (hsub x).mp hx with rfl | hx
      · show o + m < tx.nextOffset
        omega
      · exact h.below x hx
    · intro k d hk
      show d ≠ [] ∧ k + d.length ≤ tx.nextOffset
      rcases hget k d hk with ⟨rfl, rfl⟩ | ⟨rfl, rfl⟩ | ⟨-, -, hk⟩
      · rw [← List.length_pos_iff, List.length_drop]
        omega
      · rw [← List.length_pos_iff, List.length_take]
        omega
      · exact h.chunk k d hk
    · intro k d hk
      show k ∈ (Sending.insertAfter tx.sentOffsets tx.sentHead o (o + m)).drop tx.sentHead
      rw [hinsert, List.drop_append_of_le_length hhead]
      have hkept : ∀ x ∈ tx.sentOffsets.drop tx.sentHead, x ∈ before.drop tx.sentHead ++ o :: (o + m) :: after := by
        intro x hx
        rw [hlist, List.drop_append_of_le_length hhead] at hx
        simp only [List.mem_append, List.mem_cons] at hx ⊢
        tauto
      rcases hget k d hk with ⟨rfl, -⟩ | ⟨rfl, -⟩ | ⟨-, -, hk⟩
      · simp
      · simp
      · exact hkept k (h.listed k d hk)
    · intro k d hk x hx hkx
      rcases hget k d hk with ⟨rfl, rfl⟩ | ⟨rfl, rfl⟩ | ⟨hko, -, hk⟩
      · rcases (hsub x).mp hx with rfl | hx
        · omega
        · have := h.spaced o c hc x hx (by omega)
          rw [List.length_drop]
          omega
      · rw [List.length_take]
        rcases (hsub x).mp hx with rfl | hx
        · omega
        · have := h.spaced k c hc x hx hkx
          omega
      · rcases (hsub x).mp hx with rfl | hx
        · rcases Nat.lt_or_ge k o with hlo | hlo
          · have := h.disjoint hk hc hlo
            omega
          · have := h.disjoint hc hk (by omega)
            omega
        · exact h.spaced k d hk x hx hkx
    · intro k d hk
      rcases hget k d hk with ⟨rfl, -⟩ | ⟨rfl, -⟩ | ⟨-, -, hk⟩
      · have := h.held o c hc
        show tx.written ≤ o + m + maxBuffered
        omega
      · exact h.held k c hc
      · exact h.held k d hk

/-- A new chunk is cut where what was sent ends. -/
theorem cutChunk (h : Listed tx) (hf : 0 < tx.fresh) : Listed tx.cutChunk := by
  have hle : tx.fresh ≤ tx.unsent.bytes := Nat.min_le_left _ _
  have hunsent := h.unsent
  have hlen : (tx.unsent.take tx.fresh).1.length = tx.fresh := by
    rw [Pieces.take_fst, List.length_take]
    exact Nat.min_eq_left hle
  have hget : ∀ k d, tx.cutChunk.chunks.get k = some d →
      (k = tx.nextOffset ∧ d.length = tx.fresh) ∨ tx.chunks.get k = some d := by
    intro k d hk
    have hk : (tx.chunks.set tx.nextOffset (tx.unsent.take tx.fresh).1).get k = some d := hk
    rw [OrdMap.get_set] at hk
    split at hk
    · rename_i hkn
      exact Or.inl ⟨hkn, by rw [← Option.some.inj hk, hlen]⟩
    · exact Or.inr hk
  refine ⟨?_, ?_, ?_, ?_, ?_, ?_, ?_, ?_, ?_, h.sized⟩
  · show (tx.sentOffsets ++ [tx.nextOffset]).Pairwise (· < ·)
    refine List.pairwise_append.mpr ⟨h.sorted, List.pairwise_singleton _ _, fun x hx y hy => ?_⟩
    rw [List.mem_singleton.mp hy]
    exact h.below x hx
  · show tx.sentHead ≤ (tx.sentOffsets ++ [tx.nextOffset]).length
    have := h.head
    rw [List.length_append]
    omega
  · intro x hx
    show x < tx.nextOffset + tx.fresh
    rcases List.mem_append.mp hx with hx | hx
    · have := h.below x hx
      omega
    · rw [List.mem_singleton.mp hx]
      omega
  · intro k d hk
    show d ≠ [] ∧ k + d.length ≤ tx.nextOffset + tx.fresh
    rcases hget k d hk with ⟨rfl, hd⟩ | hk
    · rw [← List.length_pos_iff]
      omega
    · obtain ⟨hne, hend⟩ := h.chunk k d hk
      exact ⟨hne, by omega⟩
  · intro k d hk
    show k ∈ (tx.sentOffsets ++ [tx.nextOffset]).drop tx.sentHead
    rw [List.drop_append_of_le_length h.head]
    rcases hget k d hk with ⟨rfl, -⟩ | hk
    · simp
    · exact List.mem_append_left _ (h.listed k d hk)
  · intro k d hk x hx hkx
    rcases List.mem_append.mp hx with hx | hx
    · rcases hget k d hk with ⟨rfl, -⟩ | hk
      · have := h.below x hx
        omega
      · exact h.spaced k d hk x hx hkx
    · rw [List.mem_singleton.mp hx] at hkx ⊢
      rcases hget k d hk with ⟨rfl, -⟩ | hk
      · omega
      · exact (h.chunk k d hk).2
  · show tx.nextOffset + tx.fresh + (tx.unsent.take tx.fresh).2.bytes = tx.written
    rw [Pieces.bytes_take]
    omega
  · intro k d hk
    show tx.written ≤ k + maxBuffered
    rcases hget k d hk with ⟨rfl, -⟩ | hk
    · exact h.kept
    · exact h.held k d hk
  · show tx.written ≤ tx.nextOffset + tx.fresh + maxBuffered
    have := h.kept
    omega

end Listed

/-- The books, with the ranges acked so far. -/
structure Booked (tx : Sending) (acked : List (Nat × Nat)) : Prop where
  list : Listed tx
  tiles : Tiles (spans tx.chunks ++ acked) tx.nextOffset

theorem weigh_split (x o m : Nat) (c : Bytes) (hm : m ≤ c.length) :
    weigh x (o, c) = weigh x (o, c.take m) + weigh x (o + m, c.drop m) := by
  simp only [weigh, covers, List.length_take, List.length_drop, Nat.min_eq_left hm, decide_eq_true_eq]
  split_ifs <;> omega

/-- A split counts as the chunk did. -/
theorem sum_split (chunks : OrdMap Nat Bytes) {o m : Nat} {c : Bytes} (hc : chunks.get o = some c)
    (h0 : 0 < m) (hm : m ≤ c.length) (hnone : chunks.get (o + m) = none) (x : Nat) :
    ((chunks.set o (c.take m)).set (o + m) (c.drop m)).sum (weigh x) = chunks.sum (weigh x) := by
  have hnew : (chunks.set o (c.take m)).get (o + m) = none := by
    rw [OrdMap.get_set, if_neg (by omega)]
    exact hnone
  rw [OrdMap.sum_set_new _ _ _ _ hnew, OrdMap.sum_set, OrdMap.sum_delete chunks (weigh x) o c hc,
    weigh_split x o m c hm]
  omega

theorem restrict_sum {κ α : Type} [DecidableEq κ] (m : OrdMap κ α) (p : κ → Bool) (f : κ × α → Nat) :
    m.sum f = (m.restrict p).sum f + (m.restrict (fun k => !(m.restrict p).has k)).sum f := by
  have hkeys : ∀ e ∈ m.entries, (!(m.restrict p).has e.1) = !p e.1 := by
    intro e he
    have hget := (OrdMap.get_eq_some m e.1 e.2).mpr he
    congr 1
    rw [Bool.eq_iff_iff, OrdMap.has_iff]
    simp only [OrdMap.get_restrict, hget]
    split
    · rename_i hp
      exact ⟨fun _ => hp, fun _ => ⟨_, rfl⟩⟩
    · rename_i hp
      constructor
      · rintro ⟨_, h⟩
        cases h
      · exact fun h => absurd h hp
  have hrest : (m.restrict (fun k => !(m.restrict p).has k)).entries =
      m.entries.filter (fun e => !p e.1) := List.filter_congr hkeys
  have hkept : (m.restrict p).entries = m.entries.filter (fun e => p e.1) := rfl
  simp only [OrdMap.sum, hrest, hkept]
  clear hrest hkept hkeys
  induction m.entries with
  | nil => rfl
  | cons e es ih =>
    cases hp : p e.1 with
    | true => simp [hp, ih, Nat.add_assoc]
    | false => simp [hp, ih, Nat.add_left_comm]

namespace Sending

theorem ackPacket_chunks (largest : Int) (a : Sending × Option Flight) (pn : Nat) :
    ∃ p : Nat → Bool, (ackPacket largest a pn).1 = { a.1 with
      inFlight := (ackPacket largest a pn).1.inFlight
      bytesInFlight := (ackPacket largest a pn).1.bytesInFlight
      ptoCount := (ackPacket largest a pn).1.ptoCount
      window := (ackPacket largest a pn).1.window
      chunks := a.1.chunks.restrict p } := by
  unfold ackPacket
  dsimp only
  cases hf : a.1.inFlight.get pn with
  | none =>
    refine ⟨fun _ => true, ?_⟩
    have hall : a.1.chunks.restrict (fun _ => true) = a.1.chunks :=
      OrdMap.ext_entries (List.filter_eq_self.mpr fun _ _ => rfl)
    rw [hall]
  | some f => exact ⟨fun o => decide (o ≠ f.offset), rfl⟩

/-- Acks leave of a sender's chunks those at some offsets, and nothing else of its books changes. -/
structure Acked (tx tx' : Sending) : Prop where
  chunks : ∃ p : Nat → Bool, tx'.chunks = tx.chunks.restrict p
  sentOffsets : tx'.sentOffsets = tx.sentOffsets
  sentHead : tx'.sentHead = tx.sentHead
  nextOffset : tx'.nextOffset = tx.nextOffset
  written : tx'.written = tx.written
  unsent : tx'.unsent = tx.unsent
  packetBytes : tx'.packetBytes = tx.packetBytes

theorem Acked.refl (tx : Sending) : Acked tx tx :=
  ⟨⟨fun _ => true, OrdMap.ext_entries (List.filter_eq_self.mpr fun _ _ => rfl).symm⟩,
    rfl, rfl, rfl, rfl, rfl, rfl⟩

theorem Acked.trans {tx tx' tx'' : Sending} (h : Acked tx tx') (h' : Acked tx' tx'') :
    Acked tx tx'' := by
  obtain ⟨p, hp⟩ := h.chunks
  obtain ⟨q, hq⟩ := h'.chunks
  refine ⟨⟨fun o => q o && p o, ?_⟩, h'.sentOffsets.trans h.sentOffsets,
    h'.sentHead.trans h.sentHead, h'.nextOffset.trans h.nextOffset, h'.written.trans h.written,
    h'.unsent.trans h.unsent, h'.packetBytes.trans h.packetBytes⟩
  rw [hq, hp]
  exact OrdMap.ext_entries (List.filter_filter)

theorem ackPacket_acked (largest : Int) (a : Sending × Option Flight) (pn : Nat) :
    Acked a.1 (ackPacket largest a pn).1 := by
  obtain ⟨p, he⟩ := ackPacket_chunks largest a pn
  rw [he]
  exact ⟨⟨p, rfl⟩, rfl, rfl, rfl, rfl, rfl, rfl⟩

theorem ackPackets_acked (largest : Int) (pns : List Nat) (a : Sending × Option Flight) :
    Acked a.1 (pns.foldl (ackPacket largest) a).1 := by
  induction pns generalizing a with
  | nil => exact Acked.refl _
  | cons pn pns ih => exact (ackPacket_acked largest a pn).trans (ih _)

theorem ackRange_acked (largest : Int) (a : (Sending × Option Flight) × Option Int)
    (r : Nat × Nat) : Acked a.1.1 (ackRange largest a r).1.1 := by
  unfold ackRange
  dsimp only
  split
  · exact Acked.refl _
  · exact ackPackets_acked largest _ a.1

theorem ackNamed_acked (tx : Sending) (largest : Int) (ranges : List (Nat × Nat)) :
    Acked tx (UdpStream.ackNamed tx largest ranges).1 := by
  suffices h : ∀ a : (Sending × Option Flight) × Option Int,
      Acked a.1.1 (ranges.foldl (ackRange largest) a).1.1 from h ((tx, none), none)
  induction ranges with
  | nil => exact fun a => Acked.refl _
  | cons r ranges ih => exact fun a => (ackRange_acked largest a r).trans (ih _)

end Sending

namespace Booked

variable {tx : Sending} {acked : List (Nat × Nat)}

theorem still (h : Booked tx acked) {tx' : Sending} (hs : tx.Still tx') : Booked tx' acked :=
  ⟨h.list.still hs, by rw [hs.chunks, hs.nextOffset]; exact h.tiles⟩

/-- What an ack takes out joins what was acked. -/
theorem acks (h : Booked tx acked) {tx' : Sending} (ha : tx.Acked tx') :
    Booked tx' (acked ++ took tx tx') := by
  obtain ⟨p, hp⟩ := ha.chunks
  refine ⟨h.list.fewer (fun o c ho => ?_) ha.sentOffsets ha.sentHead ha.nextOffset ha.written
    ha.unsent ha.packetBytes, fun x => ?_⟩
  · rw [hp, OrdMap.get_restrict] at ho
    split at ho
    · exact ho
    · cases ho
  · have hx := h.tiles x
    have hsum := restrict_sum tx.chunks p (weigh x)
    rw [ha.nextOffset, ← hx]
    simp only [List.countP_append, countP_spans, took, hp]
    omega

theorem oldestChunk (h : Booked tx acked) : Booked tx.oldestChunk.1 acked := by
  refine ⟨h.list.oldestChunk, ?_⟩
  obtain ⟨offsets, head, he, -⟩ := Sending.oldestChunk_spec tx h.list.head
  rw [he]
  exact h.tiles

theorem fit (h : Booked tx acked) {o : Nat} {c : Bytes} (hc : tx.chunks.get o = some c) :
    Booked (tx.fit o c) acked := by
  refine ⟨h.list.fit hc, ?_⟩
  have hroom := h.list.room_pos
  unfold Sending.fit
  dsimp only
  split
  · exact h.tiles
  · intro x
    have hx := h.tiles x
    simp only [List.countP_append, countP_spans] at hx ⊢
    rw [sum_split tx.chunks hc hroom (by omega) (h.list.inside_none hc hroom (by omega))]
    exact hx

theorem cutChunk (h : Booked tx acked) (hf : 0 < tx.fresh) : Booked tx.cutChunk acked := by
  refine ⟨h.list.cutChunk hf, fun x => ?_⟩
  have hx := h.tiles x
  have hnew : tx.chunks.get tx.nextOffset = none := by
    rw [Option.eq_none_iff_forall_ne_some]
    intro c hc
    obtain ⟨hne, hend⟩ := h.list.chunk _ c hc
    have := List.length_pos_iff.mpr hne
    omega
  have hlen : (tx.unsent.take tx.fresh).1.length = tx.fresh := by
    rw [Pieces.take_fst, List.length_take]
    exact Nat.min_eq_left (Nat.min_le_left _ _)
  show (spans (tx.chunks.set tx.nextOffset (tx.unsent.take tx.fresh).1) ++ acked).countP (covers x) =
    if x < tx.nextOffset + tx.fresh then 1 else 0
  simp only [List.countP_append, countP_spans] at hx ⊢
  rw [OrdMap.sum_set_new _ _ _ _ hnew]
  simp only [weigh, covers, hlen, decide_eq_true_eq] at hx ⊢
  split_ifs at hx ⊢ <;> omega

theorem nextLost (h : Booked tx acked) (offsets : List Nat) :
    Booked (tx.nextLost offsets).1 acked := by
  induction offsets generalizing tx with
  | nil => exact h
  | cons o rest ih =>
    have hdrop : Booked { tx with lost := tx.lost.delete o } acked :=
      h.still ⟨rfl, rfl, rfl, rfl, rfl, rfl, id⟩
    cases hc : tx.chunks.get o with
    | none =>
      rw [Sending.nextLost_acked rest hc]
      exact ih hdrop
    | some c =>
      rw [Sending.nextLost_kept rest hc]
      exact hdrop.fit hc

theorem nextChunk (h : Booked tx acked) (probe : Bool) : Booked (tx.nextChunk probe).1 acked := by
  have hlost := h.nextLost tx.lost.keys
  have hcases := Sending.nextChunk_cases tx probe
  generalize (tx.nextLost tx.lost.keys).1 = tx' at hlost hcases
  rcases hcases with ⟨o, -, he⟩ | ⟨-, ⟨hf, he⟩ | ⟨-, -, o, ho, he⟩ | ⟨-, he⟩⟩
  · rw [he]
    exact hlost
  · rw [he]
    exact hlost.cutChunk hf
  · rw [he]
    obtain ⟨⟨c, hc⟩, -⟩ := hlost.list.oldest_least.1 o ho
    obtain ⟨offsets, head, hold, -⟩ := Sending.oldestChunk_spec tx' hlost.list.head
    have hc' : tx'.oldestChunk.1.chunks.get o = some c := by
      rw [hold]
      exact hc
    rw [hc', Option.getD_some]
    exact hlost.oldestChunk.fit hc'
  · rw [he]
    split
    · exact hlost.oldestChunk
    · exact hlost

end Booked

end SeedTransport.Stream
