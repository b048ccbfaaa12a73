import SeedTransport.Framing.Pieces

set_option autoImplicit false

namespace SeedTransport.Framing

/-! The byte queue is a plain one, and leaves alone every view its user holds. -/

namespace Pieces

/-- The piece that small pieces gather in. -/
def accumulator (q : Pieces) : Option View := q.tail.bind fun t => q.list.getD t none

def slices (q : Pieces) : Nat := q.list.length - q.head

/-- The accumulator is the last slot, and not a freed one. -/
def Last (q : Pieces) : Prop := ∀ t, q.tail = some t → q.head ≤ t ∧ t + 1 = q.list.length

/-- The accumulator stays as bytes are consumed, up to the last of them. -/
structure Trails (q q' : Pieces) : Prop where
  last : q'.Last
  owned : q'.tailOwned = q.tailOwned
  mergeBelow : q'.mergeBelow = q.mergeBelow
  kept : (q'.accumulator = q.accumulator ∧ (q'.tail = none ↔ q.tail = none)) ∨
    q'.tail = none ∧ q'.head = q'.list.length
  slices : q'.slices ≤ q.slices

theorem Trails.refl {q : Pieces} (h : q.Last) : Trails q q :=
  ⟨h, rfl, rfl, Or.inl ⟨rfl, Iff.rfl⟩, Nat.le_refl _⟩

theorem Trails.trans {q q' q'' : Pieces} (h : Trails q q') (h' : Trails q' q'')
    (hend : q'.head = q'.list.length → q''.tail = q'.tail ∧ q''.head = q''.list.length) : Trails q q'' := by
  refine ⟨h'.last, h'.owned.trans h.owned, h'.mergeBelow.trans h.mergeBelow, ?_, Nat.le_trans h'.slices h.slices⟩
  rcases h.kept with ⟨hacc, htail⟩ | ⟨hnone, hhead⟩
  · rcases h'.kept with ⟨hacc', htail'⟩ | hdone
    · exact Or.inl ⟨hacc'.trans hacc, htail'.trans htail⟩
    · exact Or.inr hdone
  · obtain ⟨ht, hh⟩ := hend hhead
    exact Or.inr ⟨ht.trans hnone, hh⟩

theorem free_trails {q : Pieces} (h : q.Last) (hhead : q.head < q.list.length) : Trails q q.free := by
  have hslices : q.free.slices ≤ q.slices := by
    unfold slices free
    dsimp only
    rw [List.length_set]
    omega
  by_cases ht : q.tail = some q.head
  · obtain ⟨-, hlen⟩ := h _ ht
    have hnone : q.free.tail = none := if_pos ht
    refine ⟨fun t h' => ?_, rfl, rfl, Or.inr ⟨hnone, ?_⟩, hslices⟩
    · rw [hnone] at h'
      cases h'
    · show q.head + 1 = (q.list.set q.head none).length
      rw [List.length_set]
      exact hlen
  · have hsame : q.free.tail = q.tail := if_neg ht
    refine ⟨fun t h' => ?_, rfl, rfl, Or.inl ⟨?_, by rw [hsame]⟩, hslices⟩
    · rw [hsame] at h'
      obtain ⟨hle, hlen⟩ := h t h'
      have hne : q.head ≠ t := fun he => ht (he ▸ h')
      show q.head + 1 ≤ t ∧ t + 1 = (q.list.set q.head none).length
      rw [List.length_set]
      omega
    · unfold accumulator
      rw [hsame]
      refine Option.bind_congr fun t h' => ?_
      have hne : q.head ≠ t := fun he => ht (he ▸ h')
      show (q.list.set q.head none).getD t none = q.list.getD t none
      rw [List.getD_eq_getElem?_getD, List.getD_eq_getElem?_getD, List.getElem?_set_ne hne]

theorem cut_trails {q : Pieces} (h : q.Last) (hhead : q.head ≤ q.list.length) :
    Trails q q.cut ∧ (q.head = q.list.length → q.cut.tail = q.tail ∧ q.cut.head = q.cut.list.length) ∧
      q.cut.head ≤ q.cut.list.length := by
  unfold cut
  split
  · refine ⟨⟨fun t h' => ?_, rfl, rfl, Or.inl ⟨?_, ?_⟩, ?_⟩, fun he => ?_, Nat.zero_le _⟩
    · obtain ⟨k, hk, rfl⟩ := Option.map_eq_some_iff.mp h'
      obtain ⟨hle, hlen⟩ := h k hk
      show 0 ≤ k - q.head ∧ k - q.head + 1 = (q.list.drop q.head).length
      rw [List.length_drop]
      omega
    · unfold accumulator
      cases ht : q.tail with
      | none => rfl
      | some t =>
        obtain ⟨hle, -⟩ := h t ht
        show (q.list.drop q.head).getD (t - q.head) none = q.list.getD t none
        rw [List.getD_eq_getElem?_getD, List.getD_eq_getElem?_getD, List.getElem?_drop, Nat.add_sub_cancel' hle]
    · simp
    · show (q.list.drop q.head).length - 0 ≤ q.list.length - q.head
      rw [List.length_drop]
      omega
    · have hnone : q.tail = none := by
        cases ht : q.tail with
        | none => rfl
        | some t =>
          obtain ⟨hle, hlen⟩ := h t ht
          omega
      refine ⟨by rw [hnone]; rfl, ?_⟩
      show 0 = (q.list.drop q.head).length
      rw [List.length_drop]
      omega
  · exact ⟨Trails.refl h, fun he => ⟨rfl, he⟩, hhead⟩

theorem shift_trails {q : Pieces} (h : q.Last) (hhead : q.head < q.list.length) :
    Trails q q.shift ∧ q.shift.head ≤ q.shift.list.length := by
  have hfree := free_trails h hhead
  have hle : q.free.head ≤ q.free.list.length := by
    show q.head + 1 ≤ (q.list.set q.head none).length
    rw [List.length_set]
    exact hhead
  obtain ⟨hcut, hend, hcutle⟩ := cut_trails hfree.last hle
  exact ⟨hfree.trans hcut hend, hcutle⟩

/-- A turn of `consume`, with the bytes it takes counted. -/
theorem turn_trails {q : Pieces} (h : q.Last) (hhead : q.head < q.list.length) (off len : Nat) :
    let q₁ : Pieces := { q with off := off }
    let q₂ := if q₁.off = len then q₁.shift else q₁
    Trails q q₂ ∧ q₂.head ≤ q₂.list.length := by
  intro q₁ q₂
  by_cases hfull : q₁.off = len
  · have hq₂ : q₂ = q₁.shift := if_pos hfull
    rw [hq₂]
    obtain ⟨htrails, hle⟩ := shift_trails (q := q₁) h hhead
    exact ⟨⟨htrails.last, htrails.owned, htrails.mergeBelow, htrails.kept, htrails.slices⟩, hle⟩
  · have hq₂ : q₂ = q₁ := if_neg hfull
    rw [hq₂]
    exact ⟨⟨h, rfl, rfl, Or.inl ⟨rfl, Iff.rfl⟩, Nat.le_refl _⟩, Nat.le_of_lt hhead⟩

theorem consumeLoop_end (n pre fuel : Nat) (h : Heap) {q : Pieces} (got : Nat) (out : Option View)
    (hend : q.head = q.list.length) : consumeLoop n pre fuel h q got out = (h, q, out) := by
  cases fuel with
  | zero => rfl
  | succ fuel =>
    have hslot : q.list.getD q.head none = none := by
      rw [List.getD_eq_getElem?_getD, List.getElem?_eq_none (by omega)]
      rfl
    unfold consumeLoop
    rw [hslot]
    dsimp only
    rw [ite_self]

/-- Consuming moves the front and leaves the accumulator. -/
theorem consumeLoop_trails (n pre fuel : Nat) (h : Heap) {q : Pieces} (got : Nat) (out : Option View)
    (hlast : q.Last) (hhead : q.head ≤ q.list.length) :
    Trails q (consumeLoop n pre fuel h q got out).2.1 ∧
      (consumeLoop n pre fuel h q got out).2.1.head ≤ (consumeLoop n pre fuel h q got out).2.1.list.length := by
  induction fuel generalizing h q got out with
  | zero => exact ⟨Trails.refl hlast, hhead⟩
  | succ fuel ih =>
    unfold consumeLoop
    by_cases hgot : got < n
    · rw [if_pos hgot]
      cases hslot : q.list.getD q.head none with
      | none => exact ⟨Trails.refl hlast, hhead⟩
      | some piece =>
        have hlt : q.head < q.list.length := by
          by_contra hge
          rw [List.getD_eq_getElem?_getD, List.getElem?_eq_none (by omega)] at hslot
          cases hslot
        dsimp only
        obtain ⟨hturn, hle⟩ := turn_trails hlast hlt (q.off + min (piece.len - q.off) (n - got)) piece.len
        dsimp only at hturn hle
        generalize (if q.off + min (piece.len - q.off) (n - got) = piece.len then
          ({ q with off := q.off + min (piece.len - q.off) (n - got) } : Pieces).shift
          else { q with off := q.off + min (piece.len - q.off) (n - got) }) = q₁ at hturn hle ⊢
        refine ⟨hturn.trans (ih _ _ _ hturn.last hle).1 fun hend => ?_, (ih _ _ _ hturn.last hle).2⟩
        rw [consumeLoop_end _ _ _ _ _ _ hend]
        exact ⟨rfl, hend⟩
    · rw [if_neg hgot]
      exact ⟨Trails.refl hlast, hhead⟩

theorem consume_trails (n pre : Nat) (h : Heap) {q : Pieces} (out : Option View) (hlast : q.Last)
    (hhead : q.head ≤ q.list.length) : Trails q (q.consume h n out pre).2.1 := by
  have hbytes : ({ q with bytes := q.bytes - n } : Pieces).Last := hlast
  obtain ⟨htrails, -⟩ := consumeLoop_trails n pre n h 0 out hbytes hhead
  exact ⟨htrails.last, htrails.owned, htrails.mergeBelow, htrails.kept, htrails.slices⟩

/-- A view that nothing writes: it lies in the heap, and behind it where the accumulator grows. -/
structure Kept (h : Heap) (q : Pieces) (g : View) : Prop where
  heap : g.InHeap h
  behind : q.tailOwned = true → ∀ v, q.accumulator = some v → g.buf = v.buf → g.off + g.len ≤ v.off + v.len

theorem Kept.consumed {h h' : Heap} {q q' : Pieces} {g : View} (hg : Kept h q g) (ht : Trails q q')
    (hlen : h.length ≤ h'.length) (hold : h'.getD g.buf [] = h.getD g.buf []) :
    Kept h' q' g ∧ g.read h' = g.read h := by
  refine ⟨⟨⟨Nat.lt_of_lt_of_le hg.heap.1 hlen, by rw [hold]; exact hg.heap.2⟩, fun hown v hv => ?_⟩,
    View.read_congr hold⟩
  rw [ht.owned] at hown
  rcases ht.kept with ⟨hacc, -⟩ | ⟨hnone, -⟩
  · exact hg.behind hown v (hacc ▸ hv)
  · unfold accumulator at hv
    rw [hnone] at hv
    cases hv

/-- What a push does to slices and views. -/
structure Pushed (h : Heap) (q : Pieces) (piece : View) (r : Heap × Pieces) : Prop where
  mergeBelow : r.2.mergeBelow = q.mergeBelow
  slices : r.2.slices ≤ q.slices + 1
  shares : piece.len < q.mergeBelow → q.tail ≠ none → r.2.slices = q.slices
  gathers : 0 < piece.len → piece.len < q.mergeBelow → r.2.tail ≠ none
  keeps : ∀ g, Kept h q g → Kept r.1 r.2 g ∧ g.read r.1 = g.read h

theorem overwritten_before {x bytes : Bytes} {off : Nat} {g : View} (hoff : off ≤ x.length)
    (hg : g.off + g.len ≤ off) : ((overwrite x off bytes).drop g.off).take g.len = (x.drop g.off).take g.len := by
  have htake := congrArg (List.drop g.off) (overwrite_take bytes hoff (g.off + g.len) hg)
  rwa [List.drop_take, List.drop_take, Nat.add_sub_cancel_left] at htake

theorem push_spec {h : Heap} {q : Pieces} {vs : List View} (hq : Valid [] [] h q vs) (piece : View) :
    Pushed h q piece (q.push h piece) := by
  have hhead := hq.head
  unfold push
  by_cases hzero : piece.len = 0
  · rw [if_pos hzero]
    exact ⟨rfl, Nat.le_succ _, fun _ _ => rfl, fun h => absurd hzero (Nat.ne_of_gt h), fun g hg => ⟨hg, rfl⟩⟩
  rw [if_neg hzero]
  dsimp only
  by_cases hlarge : piece.len ≥ q.mergeBelow
  · rw [if_pos hlarge]
    refine ⟨rfl, ?_, fun h => absurd hlarge (Nat.not_le.mpr h), fun _ h => absurd hlarge (Nat.not_le.mpr h),
      fun g hg => ⟨⟨hg.heap, fun _ v hv => ?_⟩, rfl⟩⟩
    · show (q.list ++ [some piece]).length - q.head ≤ q.list.length - q.head + 1
      rw [List.length_append, List.length_singleton]
      omega
    · cases hv
  rw [if_neg hlarge]
  cases ht : q.tail with
  | none =>
    refine ⟨rfl, ?_, fun _ hne => absurd ht hne, fun _ _ hnone => Option.some_ne_none _ hnone,
      fun g hg => ⟨⟨hg.heap, nofun⟩, rfl⟩⟩
    show (q.list ++ [some piece]).length - q.head ≤ q.list.length - q.head + 1
    rw [List.length_append, List.length_singleton]
    omega
  | some t =>
    obtain ⟨ws, cur, rfl, hcur, -⟩ := hq.tail_slot ht
    obtain ⟨hlast, -⟩ := hq.tail t ht
    have hcurin := (hq.pieces cur (List.mem_append_right _ (List.mem_singleton.mpr rfl))).2
    have hacc : q.accumulator = some cur := by
      unfold accumulator
      rw [ht]
      exact hcur
    have hset : ∀ x : View, (q.list.set t (some x)).getD t none = some x := fun x => by
      rw [List.getD_eq_getElem?_getD, List.getElem?_set_self (by omega)]
      rfl
    have hsame : ∀ x : View, (q.list.set t (some x)).length - q.head = q.list.length - q.head := fun x => by
      rw [List.length_set]
    dsimp only
    rw [hcur]
    dsimp only
    split
    · rename_i hgrow
      refine ⟨rfl, Nat.le_succ_of_le (Nat.le_of_eq (hsame _)), fun _ _ => hsame _,
        fun _ _ hnone => Option.some_ne_none t hnone, fun g hg => ?_⟩
      have hbehind := hg.behind hgrow.1 cur hacc
      have hroom := hcurin.2
      have hbytes : (piece.read h).length ≤ piece.len := List.length_take_le _ _
      refine ⟨⟨⟨by rw [Heap.put_length]; exact hg.heap.1, ?_⟩, fun _ v hv hbuf => ?_⟩, ?_⟩
      · by_cases hbuf : g.buf = cur.buf
        · rw [hbuf, Heap.put_same _ _ hcurin.1, overwrite_length (by omega), ← hbuf]
          exact hg.heap.2
        · rw [Heap.put_other _ _ hbuf]
          exact hg.heap.2
      · obtain rfl := Option.some.inj ((hset _).symm.trans hv)
        have hle := hbehind hbuf
        show g.off + g.len ≤ cur.off + (cur.len + piece.len)
        omega
      · by_cases hbuf : g.buf = cur.buf
        · unfold View.read
          rw [hbuf, Heap.put_same _ _ hcurin.1]
          exact overwritten_before hroom (hbehind hbuf)
        · exact View.read_congr (Heap.put_other _ _ hbuf)
    · refine ⟨rfl, Nat.le_succ_of_le (Nat.le_of_eq (hsame _)), fun _ _ => hsame _,
        fun _ _ hnone => Option.some_ne_none t hnone, fun g hg => ?_⟩
      have hold := Heap.alloc_old (h := h) (overwrite (overwrite (List.replicate
        (max q.mergeBelow ((cur.len + piece.len) * 2)) 0) 0 (cur.read h)) cur.len (piece.read h)) hg.heap.1
      refine ⟨⟨⟨Nat.lt_of_lt_of_le hg.heap.1 (by simp), by rw [hold]; exact hg.heap.2⟩, fun _ v hv hbuf => ?_⟩,
        View.read_congr hold⟩
      obtain rfl := Option.some.inj ((hset _).symm.trans hv)
      exact absurd hbuf (Nat.ne_of_lt hg.heap.1)

end Pieces

/-! ### Calls one after another -/

/-- The calls of the queue, on pieces of some kind, and the making of a buffer by its user. -/
inductive Op (ρ : Type)
  | make (bytes : Bytes)
  | push (piece : ρ)
  | take (n : Nat)
  | takeCopy (n pre : Nat)
  | peek (n : Nat)
  | byteAt (i : Nat)

def Op.map {ρ σ : Type} (f : ρ → σ) : Op ρ → Op σ
  | .make bytes => .make bytes
  | .push piece => .push (f piece)
  | .take n => .take n
  | .takeCopy n pre => .takeCopy n pre
  | .peek n => .peek n
  | .byteAt i => .byteAt i

def Op.pushes {ρ : Type} : Op ρ → Bool
  | .push _ => true
  | _ => false

/-- What they answer. -/
inductive Reply (ρ : Type)
  | nothing
  | slice (s : ρ)
  | bytes (b : Bytes)
  | byte (b : Nat)
  deriving DecidableEq

def Reply.map {ρ σ : Type} (f : ρ → σ) : Reply ρ → Reply σ
  | .nothing => .nothing
  | .slice s => .slice (f s)
  | .bytes b => .bytes b
  | .byte b => .byte b

/-- A plain byte queue. -/
def plain (q : Bytes) : Op Bytes → Bytes × Reply Bytes
  | .make _ => (q, .nothing)
  | .push piece => (q ++ piece, .nothing)
  | .take n => (q.drop n, .slice (q.take n))
  | .takeCopy n pre => (q.drop n, .slice (List.replicate pre 0 ++ q.take n))
  | .peek n => (q, .bytes (q.take n))
  | .byteAt i => (q, .byte (SeedTransport.byteAt q i))

def plainRun (q : Bytes) : List (Op Bytes) → Bytes × List (Reply Bytes)
  | [] => (q, [])
  | op :: ops =>
    let r := plain q op
    let rs := plainRun r.1 ops
    (rs.1, r.2 :: rs.2)

/-- The queue, and the views its user holds: of buffers of its own, and those it was handed. -/
structure Fifo where
  heap : Heap
  parts : Pieces
  held : List View

namespace Fifo

def new (mergeBelow : Nat) : Fifo := ⟨[], { mergeBelow := mergeBelow }, []⟩

def contents (s : Fifo) : Bytes := s.parts.contents s.heap

/-- A part of a view. -/
def Within (piece g : View) : Prop :=
  piece.buf = g.buf ∧ g.off ≤ piece.off ∧ piece.off + piece.len ≤ g.off + g.len

instance (piece g : View) : Decidable (Within piece g) := instDecidableAnd

/-- One call: pieces are views its user holds, and no more is taken than there is. -/
def step (s : Fifo) : Op View → Option (Fifo × Reply View)
  | .make bytes => some (⟨s.heap ++ [bytes], s.parts, ⟨s.heap.length, 0, bytes.length⟩ :: s.held⟩, .nothing)
  | .push piece =>
    if ∃ g ∈ s.held, Within piece g then
      let r := s.parts.push s.heap piece
      some (⟨r.1, r.2, s.held⟩, .nothing)
    else none
  | .take n =>
    if 0 < n ∧ n ≤ s.parts.bytes then
      let r := s.parts.take s.heap n
      r.2.2.map fun v => (⟨r.1, r.2.1, v :: s.held⟩, .slice v)
    else none
  | .takeCopy n pre =>
    if n ≤ s.parts.bytes then
      let r := s.parts.takeCopy s.heap n pre
      r.2.2.map fun v => (⟨r.1, r.2.1, v :: s.held⟩, .slice v)
    else none
  | .peek n => some (s, .bytes (s.parts.peek s.heap n))
  | .byteAt i => some (s, .byte (s.parts.byteAt s.heap i))

def run (s : Fifo) : List (Op View) → Option (Fifo × List (Reply View))
  | [] => some (s, [])
  | op :: ops =>
    (step s op).bind fun r => (run r.1 ops).map fun rs => (rs.1, r.2 :: rs.2)

/-- In good order, and every view that is held is kept. -/
structure Good (s : Fifo) : Prop where
  valid : ∃ vs, Valid [] [] s.heap s.parts vs
  held : ∀ g ∈ s.held, Pieces.Kept s.heap s.parts g

theorem new_valid (mergeBelow : Nat) : Valid [] [] (new mergeBelow).heap (new mergeBelow).parts [] where
  head := Nat.le_refl _
  live := rfl
  pieces := List.forall_mem_nil _
  front _ h := by cases h
  empty _ := rfl
  bytes := rfl
  tail _ h := by cases h
  owned h := absurd rfl h
  apart := List.forall_mem_nil _
  lent := List.forall_mem_nil _
  copied := List.forall_mem_nil _

theorem new_good (mergeBelow : Nat) : (new mergeBelow).Good where
  valid := ⟨[], new_valid mergeBelow⟩
  held := List.forall_mem_nil _

theorem forget {lent copied : List Nat} {h : Heap} {q : Pieces} {vs : List View} (hq : Valid lent copied h q vs) :
    Valid [] [] h q vs := { hq with
  owned := fun hne hown => by
    obtain ⟨ws, v, heq, -, hapart⟩ := hq.owned hne hown
    exact ⟨ws, v, heq, List.not_mem_nil, hapart⟩
  apart := fun _ _ => List.not_mem_nil
  lent := List.forall_mem_nil _
  copied := List.forall_mem_nil _ }

theorem last_of_valid {h : Heap} {q : Pieces} {vs : List View} (hq : Valid [] [] h q vs) : q.Last := by
  intro t ht
  obtain ⟨hlast, hne⟩ := hq.tail t ht
  have hlen := hq.length_eq
  have hpos := List.length_pos_of_ne_nil hne
  exact ⟨by omega, hlast⟩

theorem accumulator_last {h : Heap} {q : Pieces} {vs : List View} (hq : Valid [] [] h q vs) {v : View}
    (hv : q.accumulator = some v) : q.tail ≠ none ∧ ∃ ws, vs = ws ++ [v] := by
  unfold Pieces.accumulator at hv
  cases ht : q.tail with
  | none =>
    rw [ht] at hv
    cases hv
  | some t =>
    rw [ht] at hv
    obtain ⟨ws, cur, heq, hcur, -⟩ := hq.tail_slot ht
    obtain rfl := Option.some.inj (hcur.symm.trans hv)
    exact ⟨Option.some_ne_none t, ws, heq⟩

/-- What one call does. -/
structure Does (s : Fifo) (op : Op View) (s' : Fifo) (r : Reply View) : Prop where
  good : s'.Good
  held : ∀ g ∈ s.held, g ∈ s'.held ∧ g.read s'.heap = g.read s.heap
  plain : (s'.contents, r.map (View.read s'.heap)) = plain s.contents (op.map (View.read s.heap))
  handed : ∀ v, r = .slice v → v ∈ s'.held
  slices : s'.parts.slices ≤ s.parts.slices + if op.pushes then 1 else 0
  mergeBelow : s'.parts.mergeBelow = s.parts.mergeBelow
  gathers : s'.parts.tail = none → s.parts.tail = none ∨ s'.contents = [] ∨
    ∃ piece, op = .push piece ∧ piece.len ≥ s.parts.mergeBelow
  pushed : ∀ piece, op = .push piece → (∃ g ∈ s.held, Within piece g) ∧
    (0 < piece.len → piece.len < s.parts.mergeBelow → s'.parts.tail ≠ none)

theorem does_make {s : Fifo} (hs : s.Good) (bytes : Bytes) :
    Does s (.make bytes) ⟨s.heap ++ [bytes], s.parts, ⟨s.heap.length, 0, bytes.length⟩ :: s.held⟩ .nothing := by
  obtain ⟨vs, hq⟩ := hs.valid
  obtain ⟨hvalid, hsame⟩ := hq.heap (s.heap ++ [bytes]) (by simp)
    (fun v hv => Heap.alloc_old _ (hq.pieces v hv).2.1)
  have hkeep : ∀ g ∈ s.held, Pieces.Kept (s.heap ++ [bytes]) s.parts g ∧ g.read (s.heap ++ [bytes]) = g.read s.heap :=
    fun g hg => (hs.held g hg).consumed (Pieces.Trails.refl (last_of_valid hq)) (by simp)
      (Heap.alloc_old _ (hs.held g hg).heap.1)
  refine ⟨⟨⟨vs, hvalid⟩, fun g hg => ?_⟩, fun g hg => ⟨List.mem_cons_of_mem _ hg, (hkeep g hg).2⟩, ?_, nofun,
    Nat.le_refl _, rfl, fun h => Or.inl h, nofun⟩
  · rcases List.mem_cons.mp hg with rfl | hg
    · refine ⟨⟨by simp, ?_⟩, fun _ v hv hbuf => ?_⟩
      · show 0 + bytes.length ≤ ((s.heap ++ [bytes]).getD s.heap.length []).length
        rw [Heap.alloc_new, Nat.zero_add]
      · obtain ⟨-, ws, rfl⟩ := accumulator_last hq hv
        have hlt := (hq.pieces v (List.mem_append_right _ (List.mem_singleton.mpr rfl))).2.1
        exact absurd hbuf (Nat.ne_of_gt hlt)
    · exact (hkeep g hg).1
  · exact Prod.ext hsame rfl

theorem within_kept {h : Heap} {q : Pieces} {piece g : View} (hw : Within piece g) (hg : Pieces.Kept h q g) :
    Pieces.Kept h q piece := by
  obtain ⟨hbuf, hoff, hend⟩ := hw
  refine ⟨⟨hbuf ▸ hg.heap.1, Nat.le_trans hend (hbuf ▸ hg.heap.2)⟩, fun hown v hv he => ?_⟩
  exact Nat.le_trans hend (hg.behind hown v hv (hbuf ▸ he))

/-- A part of a view that reads the same reads the same. -/
theorem within_read {h h' : Heap} {piece g : View} (hw : Within piece g) (hread : g.read h' = g.read h) :
    piece.read h' = piece.read h := by
  obtain ⟨hbuf, hoff, hend⟩ := hw
  have hsub : piece = g.subarray (piece.off - g.off) (piece.off - g.off + piece.len) := by
    obtain ⟨buf, off, len⟩ := piece
    dsimp only at hbuf hoff hend ⊢
    unfold View.subarray
    rw [hbuf, show g.off + (off - g.off) = off by omega, Nat.add_sub_cancel_left]
  rw [hsub, View.read_sub h' (by omega), View.read_sub h (by omega), hread]

theorem does_push {s : Fifo} (hs : s.Good) {piece : View} (hheld : ∃ g ∈ s.held, Within piece g) :
    Does s (.push piece) ⟨(s.parts.push s.heap piece).1, (s.parts.push s.heap piece).2, s.held⟩ .nothing := by
  obtain ⟨vs, hq⟩ := hs.valid
  obtain ⟨g, hg, hw⟩ := hheld
  have hpiece := within_kept hw (hs.held g hg)
  obtain ⟨ws, hvalid, hcontents, -, -⟩ := hq.push hpiece.heap List.not_mem_nil
  have hpush := Pieces.push_spec hq piece
  refine ⟨⟨⟨ws, hvalid⟩, fun g hg => (hpush.keeps g (hs.held g hg)).1⟩,
    fun g hg => ⟨hg, (hpush.keeps g (hs.held g hg)).2⟩, Prod.ext hcontents rfl, nofun, hpush.slices,
    hpush.mergeBelow, fun hnone => ?_, ?_⟩
  · by_cases hzero : piece.len = 0
    · have hsame : s.parts.push s.heap piece = (s.heap, s.parts) := if_pos hzero
      rw [hsame] at hnone
      exact Or.inl hnone
    · rcases Nat.lt_or_ge piece.len s.parts.mergeBelow with hlt | hge
      · exact absurd hnone (hpush.gathers (Nat.pos_of_ne_zero hzero) hlt)
      · exact Or.inr (Or.inr ⟨piece, rfl, hge⟩)
  · rintro _ ⟨⟩
    exact ⟨⟨g, hg, hw⟩, hpush.gathers⟩

/-- Consuming, by what it answers and leaves. -/
theorem does_consume {s : Fifo} (hs : s.Good) {n : Nat} {op : Op View} {r : Heap × Pieces × Option View} {v : View}
    {answer : Bytes} (hvalid : ∃ us, Valid [] [] r.1 r.2.1 us) (htrails : Pieces.Trails s.parts r.2.1)
    (hcontents : r.2.1.contents r.1 = s.contents.drop n) (hold : ∀ b, b < s.heap.length → r.1.getD b [] = s.heap.getD b [])
    (hlen : s.heap.length ≤ r.1.length) (hv : Pieces.Kept r.1 r.2.1 v) (hread : v.read r.1 = answer)
    (hop : plain s.contents (op.map (View.read s.heap)) = (s.contents.drop n, .slice answer))
    (hpush : ∀ piece, op ≠ .push piece) : Does s op ⟨r.1, r.2.1, v :: s.held⟩ (.slice v) := by
  have hkeep := fun g hg => (hs.held g hg).consumed htrails hlen (hold _ (hs.held g hg).heap.1)
  refine ⟨⟨hvalid, fun g hg => ?_⟩, fun g hg => ⟨List.mem_cons_of_mem _ hg, (hkeep g hg).2⟩, ?_, ?_,
    Nat.le_trans htrails.slices (Nat.le_add_right _ _), htrails.mergeBelow, fun hnone => ?_,
    fun piece he => absurd he (hpush piece)⟩
  · rcases List.mem_cons.mp hg with rfl | hg
    · exact hv
    · exact (hkeep g hg).1
  · rw [hop]
    exact Prod.ext hcontents (congrArg Reply.slice hread)
  · rintro _ ⟨⟩
    exact List.mem_cons_self
  · rcases htrails.kept with ⟨-, hiff⟩ | ⟨-, hend⟩
    · exact Or.inl (hiff.mp hnone)
    · refine Or.inr (Or.inl ?_)
      show r.2.1.contents r.1 = []
      unfold Pieces.contents
      rw [hend, List.drop_length]
      simp

theorem does_take {s : Fifo} (hs : s.Good) {n : Nat} (hn : 0 < n ∧ n ≤ s.parts.bytes) :
    ∃ v, (s.parts.take s.heap n).2.2 = some v ∧
      Does s (.take n) ⟨(s.parts.take s.heap n).1, (s.parts.take s.heap n).2.1, v :: s.held⟩ (.slice v) := by
  obtain ⟨vs, hq⟩ := hs.valid
  have hsum := hq.bytes
  cases vs with
  | nil =>
    have hzero := hq.empty rfl
    simp only [List.map_nil, List.sum_nil] at hsum
    omega
  | cons front ws =>
    obtain ⟨hvalid, htaken⟩ := hq.take_front hn.1 hn.2
    have htrails : Pieces.Trails s.parts (s.parts.take s.heap n).2.1 :=
      Pieces.consume_trails n 0 s.heap none (last_of_valid hq) hq.head
    obtain ⟨v, hsome, hin, hread, hwhere⟩ := htaken.answer
    refine ⟨v, hsome, does_consume hs hvalid htrails htaken.contents htaken.old htaken.length ⟨hin, ?_⟩ hread rfl nofun⟩
    intro hown w hw hbuf
    rw [htrails.owned] at hown
    rcases htrails.kept with ⟨hacc, -⟩ | ⟨hnone, -⟩
    · rw [hacc] at hw
      obtain ⟨hne, us, heq⟩ := accumulator_last hq hw
      have hwin := (hq.pieces w (heq ▸ List.mem_append_right _ (List.mem_singleton.mpr rfl))).2.1
      rcases hwhere with hnew | ⟨hfront, hend⟩
      · omega
      · obtain ⟨us', w', heq', -, hapart⟩ := hq.owned hne hown
        obtain ⟨rfl, hlast⟩ := List.append_inj' (heq.symm.trans heq') rfl
        obtain rfl := List.singleton_injective hlast
        cases us with
        | nil =>
          obtain ⟨rfl, -⟩ := List.cons.inj heq
          exact hend
        | cons u us =>
          obtain ⟨rfl, -⟩ := List.cons.inj heq
          exact absurd (hfront.symm.trans hbuf) (hapart front List.mem_cons_self)
    · unfold Pieces.accumulator at hw
      rw [hnone] at hw
      cases hw

theorem does_takeCopy {s : Fifo} (hs : s.Good) {n : Nat} (hn : n ≤ s.parts.bytes) (pre : Nat) :
    ∃ v, (s.parts.takeCopy s.heap n pre).2.2 = some v ∧
      Does s (.takeCopy n pre) ⟨(s.parts.takeCopy s.heap n pre).1, (s.parts.takeCopy s.heap n pre).2.1, v :: s.held⟩
        (.slice v) := by
  obtain ⟨vs, hq⟩ := hs.valid
  obtain ⟨⟨us, hvalid⟩, hsome, hcontents, hcopy, hold, hlen⟩ := hq.takeCopy hn pre
  have htrails : Pieces.Trails s.parts (s.parts.takeCopy s.heap n pre).2.1 :=
    Pieces.consume_trails n pre _ _ (last_of_valid hq) hq.head
  have hbytes := hq.contents_length
  have hlength : (List.replicate pre 0 ++ s.contents.take n).length = pre + n := by
    rw [List.length_append, List.length_replicate, List.length_take_of_le (by unfold contents; omega)]
  refine ⟨_, hsome, does_consume hs ⟨us, forget hvalid⟩ htrails hcontents hold (by omega) ⟨⟨?_, ?_⟩, ?_⟩ ?_ rfl nofun⟩
  · show s.heap.length < _
    omega
  · show 0 + (pre + n) ≤ _
    rw [hcopy]
    exact Nat.le_of_eq ((Nat.zero_add _).trans hlength.symm)
  · intro _ w hw hbuf
    rcases htrails.kept with ⟨hacc, -⟩ | ⟨hnone, -⟩
    · rw [hacc] at hw
      obtain ⟨-, us', heq⟩ := accumulator_last hq hw
      have hwin := (hq.pieces w (heq ▸ List.mem_append_right _ (List.mem_singleton.mpr rfl))).2.1
      exact absurd hbuf (Nat.ne_of_gt hwin)
    · unfold Pieces.accumulator at hw
      rw [hnone] at hw
      cases hw
  · unfold View.read
    dsimp only
    rw [hcopy, List.drop_zero]
    exact List.take_of_length_le (Nat.le_of_eq hlength)

/-- A read changes nothing. -/
theorem does_read {s : Fifo} (hs : s.Good) {op : Op View} {r : Reply View}
    (hop : plain s.contents (op.map (View.read s.heap)) = (s.contents, r.map (View.read s.heap)))
    (hpush : ∀ piece, op ≠ .push piece) (hslice : ∀ v, r ≠ .slice v) : Does s op s r :=
  ⟨hs, fun _ hg => ⟨hg, rfl⟩, hop.symm, fun v hv => absurd hv (hslice v), Nat.le_add_right _ _, rfl,
    fun hnone => Or.inl hnone, fun piece he => absurd he (hpush piece)⟩

theorem does_step {s s' : Fifo} {op : Op View} {r : Reply View} (hs : s.Good) (h : step s op = some (s', r)) :
    Does s op s' r := by
  obtain ⟨vs, hq⟩ := hs.valid
  cases op with
  | make bytes =>
    cases h
    exact does_make hs bytes
  | push piece =>
    unfold step at h
    dsimp only at h
    split at h
    · rename_i hheld
      cases h
      exact does_push hs hheld
    · cases h
  | take n =>
    unfold step at h
    dsimp only at h
    split at h
    · rename_i hn
      obtain ⟨v, hv, hdoes⟩ := does_take hs hn
      rw [hv] at h
      cases h
      exact hdoes
    · cases h
  | takeCopy n pre =>
    unfold step at h
    dsimp only at h
    split at h
    · rename_i hn
      obtain ⟨v, hv, hdoes⟩ := does_takeCopy hs hn pre
      rw [hv] at h
      cases h
      exact hdoes
    · cases h
  | peek n =>
    cases h
    exact does_read hs (by rw [hq.peek]; rfl) nofun nofun
  | byteAt i =>
    cases h
    exact does_read hs (by rw [hq.byteAt]; rfl) nofun nofun

/-- A call within its bounds is answered. -/
def Allowed (s : Fifo) : Op View → Prop
  | .push piece => ∃ g ∈ s.held, Within piece g
  | .take n => 0 < n ∧ n ≤ s.contents.length
  | .takeCopy n _ => n ≤ s.contents.length
  | _ => True

theorem step_allowed {s : Fifo} (hs : s.Good) {op : Op View} (h : Allowed s op) : (step s op).isSome := by
  obtain ⟨vs, hq⟩ := hs.valid
  have hbytes := hq.contents_length
  cases op with
  | make bytes => rfl
  | push piece =>
    have hheld : ∃ g ∈ s.held, Within piece g := h
    unfold step
    dsimp only
    rw [if_pos hheld]
    rfl
  | take n =>
    have hn : 0 < n ∧ n ≤ s.parts.bytes := ⟨h.1, hbytes ▸ h.2⟩
    obtain ⟨v, hv, -⟩ := does_take hs hn
    unfold step
    dsimp only
    rw [if_pos hn, hv]
    rfl
  | takeCopy n pre =>
    have hn : n ≤ s.parts.bytes := hbytes ▸ h
    obtain ⟨v, hv, -⟩ := does_takeCopy hs hn pre
    unfold step
    dsimp only
    rw [if_pos hn, hv]
    rfl
  | peek n => rfl
  | byteAt i => rfl

/-- The last piece pushed that was not empty. -/
def lastPiece (before : Option View) : List (Op View) → Option View
  | [] => before
  | .push piece :: ops => lastPiece (if piece.len = 0 then before else some piece) ops
  | _ :: ops => lastPiece before ops

/-- What is queued behind a small piece gathers with it. -/
def Gathering (s : Fifo) (last : Option View) : Prop :=
  s.contents ≠ [] → ∀ p, last = some p → p.len < s.parts.mergeBelow → s.parts.tail ≠ none

/-- What a run of calls does. -/
structure Ran (s : Fifo) (ops : List (Op View)) (s' : Fifo) (rs : List (Reply View)) : Prop where
  good : s'.Good
  held : ∀ g ∈ s.held, g ∈ s'.held ∧ g.read s'.heap = g.read s.heap
  plain : (s'.contents, rs.map (Reply.map (View.read s'.heap))) =
    plainRun s.contents (ops.map (Op.map (View.read s'.heap)))
  handed : ∀ v, .slice v ∈ rs → v ∈ s'.held
  pushed : ∀ piece, .push piece ∈ ops → ∃ g ∈ s'.held, Within piece g
  slices : s'.parts.slices ≤ s.parts.slices + ops.countP Op.pushes
  mergeBelow : s'.parts.mergeBelow = s.parts.mergeBelow
  gathering : ∀ last, s.Gathering last → s'.Gathering (lastPiece last ops)

/-- What one call makes of the gathering. -/
theorem Does.gathering {s s₁ : Fifo} {op : Op View} {r : Reply View} (d : Does s op s₁ r) {last : Option View}
    (hg : s.Gathering last) : s₁.Gathering (lastPiece last [op]) := by
  intro hne p hp hsmall hnone
  have hcontents : s₁.contents = (Framing.plain s.contents (op.map (View.read s.heap))).1 := congrArg Prod.fst d.plain
  rw [d.mergeBelow] at hsmall
  rcases d.gathers hnone with hbefore | hempty | ⟨piece, rfl, hlarge⟩
  · cases op with
    | push piece =>
      by_cases hzero : piece.len = 0
      · have hlast : lastPiece last [.push piece] = last := if_pos hzero
        have hnil : piece.read s.heap = [] := by
          unfold View.read
          rw [hzero, List.take_zero]
        have hsame : s₁.contents = s.contents := by
          rw [hcontents]
          show s.contents ++ piece.read s.heap = s.contents
          rw [hnil, List.append_nil]
        exact hg (hsame ▸ hne) p (hlast ▸ hp) hsmall hbefore
      · have hlast : lastPiece last [.push piece] = some piece := if_neg hzero
        obtain rfl := Option.some.inj (hlast.symm.trans hp)
        exact (d.pushed piece rfl).2 (Nat.pos_of_ne_zero hzero) hsmall hnone
    | make bytes => exact hg (fun h => hne (hcontents.trans h)) p hp hsmall hbefore
    | take n => exact hg (fun h => hne (hcontents.trans (by show s.contents.drop n = []; rw [h, List.drop_nil]))) p hp hsmall hbefore
    | takeCopy n pre => exact hg (fun h => hne (hcontents.trans (by show s.contents.drop n = []; rw [h, List.drop_nil]))) p hp hsmall hbefore
    | peek n => exact hg (fun h => hne (hcontents.trans h)) p hp hsmall hbefore
    | byteAt i => exact hg (fun h => hne (hcontents.trans h)) p hp hsmall hbefore
  · exact hne hempty
  · by_cases hzero : piece.len = 0
    · omega
    · have hlast : lastPiece last [.push piece] = some piece := if_neg hzero
      obtain rfl := Option.some.inj (hlast.symm.trans hp)
      omega

theorem lastPiece_cons (last : Option View) (op : Op View) (ops : List (Op View)) :
    lastPiece last (op :: ops) = lastPiece (lastPiece last [op]) ops := by
  cases op <;> rfl

theorem run_ran {s s' : Fifo} {ops : List (Op View)} {rs : List (Reply View)} (hs : s.Good)
    (h : run s ops = some (s', rs)) : Ran s ops s' rs := by
  induction ops generalizing s rs with
  | nil =>
    cases h
    exact ⟨hs, fun _ hg => ⟨hg, rfl⟩, rfl, nofun, nofun, Nat.le_refl _, rfl, fun _ hg => hg⟩
  | cons op ops ih =>
    obtain ⟨⟨s₁, r⟩, hstep, hrest⟩ := Option.bind_eq_some_iff.mp h
    obtain ⟨⟨s₂, rs₂⟩, hrun, heq⟩ := Option.map_eq_some_iff.mp hrest
    obtain ⟨rfl, rfl⟩ := Prod.mk.inj heq
    have d := does_step hs hstep
    have R := ih d.good hrun
    have hheld : ∀ g ∈ s.held, g ∈ s₂.held ∧ g.read s₂.heap = g.read s.heap := fun g hg =>
      ⟨(R.held g (d.held g hg).1).1, (R.held g (d.held g hg).1).2.trans (d.held g hg).2⟩
    have hop : op.map (View.read s₂.heap) = op.map (View.read s.heap) := by
      cases op with
      | push piece =>
        obtain ⟨⟨g, hg, hw⟩, -⟩ := d.pushed piece rfl
        exact congrArg Op.push (within_read hw (hheld g hg).2)
      | _ => rfl
    have hreply : r.map (View.read s₂.heap) = r.map (View.read s₁.heap) := by
      cases r with
      | slice v => exact congrArg Reply.slice (R.held v (d.handed v rfl)).2
      | _ => rfl
    refine ⟨R.good, hheld, ?_, fun v hv => ?_, fun piece hp => ?_, ?_, R.mergeBelow.trans d.mergeBelow,
      fun last hg => ?_⟩
    · have hd := d.plain
      rw [List.map_cons, List.map_cons, plainRun, hop, ← hd, ← R.plain, hreply]
    · rcases List.mem_cons.mp hv with rfl | hv
      · exact (R.held v (d.handed v rfl)).1
      · exact R.handed v hv
    · rcases List.mem_cons.mp hp with rfl | hp
      · obtain ⟨⟨g, hg, hw⟩, -⟩ := d.pushed piece rfl
        exact ⟨g, (hheld g hg).1, hw⟩
      · exact R.pushed piece hp
    · have h₁ := d.slices
      have h₂ := R.slices
      rw [List.countP_cons]
      omega
    · rw [lastPiece_cons]
      exact R.gathering _ (d.gathering hg)

/-- For every `mergeBelow` and every run of calls: each call within its bounds is answered, as a plain
queue of the bytes pushed and not taken answers it, and `bytes` is its length; what was handed out and
what was pushed is not changed by any further run; there are no more slices than pushes, and a small
piece shares the slice of a small piece before it. -/
theorem pieces_fifo (mergeBelow : Nat) (ops : List (Op View)) (s : Fifo) (rs : List (Reply View))
    (h : run (new mergeBelow) ops = some (s, rs)) :
    (∀ op, Allowed s op → (step s op).isSome) ∧
    (s.contents, rs.map (Reply.map (View.read s.heap))) = plainRun [] (ops.map (Op.map (View.read s.heap))) ∧
    s.parts.bytes = s.contents.length ∧
    (∀ v, .slice v ∈ rs ∨ .push v ∈ ops → ∀ ops' s' rs', run s ops' = some (s', rs') →
      v.read s'.heap = v.read s.heap) ∧
    s.parts.slices ≤ ops.countP Op.pushes ∧
    (∀ p piece : View, lastPiece none ops = some p → p.len < mergeBelow → s.contents ≠ [] →
      piece.len < mergeBelow → (s.parts.push s.heap piece).2.slices = s.parts.slices) := by
  have R := run_ran (new_good mergeBelow) h
  obtain ⟨vs, hq⟩ := R.good.valid
  have hmerge : s.parts.mergeBelow = mergeBelow := R.mergeBelow
  refine ⟨fun op ho => step_allowed R.good ho, R.plain, hq.contents_length.symm, fun v hv ops' s' rs' h' => ?_, ?_,
    fun p piece hp hsmall hne hpiece => ?_⟩
  · have R' := run_ran R.good h'
    rcases hv with hv | hv
    · exact (R'.held v (R.handed v hv)).2
    · obtain ⟨g, hg, hw⟩ := R.pushed v hv
      exact within_read hw (R'.held g hg).2
  · have hslices := R.slices
    have hnone : (new mergeBelow).parts.slices = 0 := rfl
    omega
  · have hgather := R.gathering none (fun _ p hp => nomatch hp) hne p hp (hmerge ▸ hsmall)
    exact (Pieces.push_spec hq _).shares (hmerge ▸ hpiece) hgather

/-- Two small pieces, and a byte taken of them. -/
theorem pieces_fifo_two : ∃ s rs, run (new 4) [.make [1, 2], .push ⟨0, 0, 2⟩, .make [3], .push ⟨1, 0, 1⟩, .take 1] =
    some (s, rs) ∧ s.contents = [2, 3] := by
  refine ⟨_, _, rfl, ?_⟩
  exact (congrArg Prod.fst (pieces_fifo 4 [.make [1, 2], .push ⟨0, 0, 2⟩, .make [3], .push ⟨1, 0, 1⟩, .take 1]
    _ _ rfl).2.1).trans rfl

end Fifo

end SeedTransport.Framing
