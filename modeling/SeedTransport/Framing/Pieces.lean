import SeedTransport.Util

set_option autoImplicit false

namespace SeedTransport.Framing

/-! The byte queue of `util.js` with its gathering, on a heap: pieces are views of buffers, those
pushed are borrowed, and only an accumulator the queue made itself is written. -/

/-- The buffers that were made, by number. -/
abbrev Heap : Type := List Bytes

/-- `set` of bytes at an offset of a buffer. -/
def overwrite (x : Bytes) (off : Nat) (bytes : Bytes) : Bytes :=
  x.take off ++ bytes ++ x.drop (off + bytes.length)

def Heap.put (h : Heap) (buf off : Nat) (bytes : Bytes) : Heap :=
  h.modify buf fun x => overwrite x off bytes

/-- A `Uint8Array` over part of a buffer. -/
structure View where
  buf : Nat
  off : Nat
  len : Nat
  deriving DecidableEq

namespace View

def read (h : Heap) (v : View) : Bytes := ((h.getD v.buf []).drop v.off).take v.len

/-- The part from `a` up to `b`. -/
def subarray (v : View) (a b : Nat) : View := ⟨v.buf, v.off + a, b - a⟩

/-- The bytes lie in the buffer. -/
def InHeap (h : Heap) (v : View) : Prop :=
  v.buf < h.length ∧ v.off + v.len ≤ (h.getD v.buf []).length

end View

structure Pieces where
  mergeBelow : Nat
  list : List (Option View) := []
  head : Nat := 0
  /-- Where in the front piece the next byte is. -/
  off : Nat := 0
  bytes : Nat := 0
  tail : Option Nat := none
  tailOwned : Bool := false

namespace Pieces

def push (h : Heap) (q : Pieces) (piece : View) : Heap × Pieces :=
  if piece.len = 0 then (h, q)
  else
    let q := { q with bytes := q.bytes + piece.len }
    if piece.len ≥ q.mergeBelow then (h, { q with list := q.list ++ [some piece], tail := none })
    else match q.tail with
      | none => (h, { q with
          tail := some q.list.length, tailOwned := false, list := q.list ++ [some piece] })
      | some t => match q.list.getD t none with
        -- The tail is never a consumed slot.
        | none => (h, q)
        | some cur =>
          if q.tailOwned ∧ piece.len ≤ (h.getD cur.buf []).length - cur.off - cur.len then
            (h.put cur.buf (cur.off + cur.len) (piece.read h),
              { q with list := q.list.set t (some ⟨cur.buf, cur.off, cur.len + piece.len⟩) })
          else
            let want := cur.len + piece.len
            let buf := overwrite (overwrite (List.replicate (max q.mergeBelow (want * 2)) 0) 0
              (cur.read h)) cur.len (piece.read h)
            (h ++ [buf],
              { q with list := q.list.set t (some ⟨h.length, 0, want⟩), tailOwned := true })

/-- The front slot is freed. -/
def free (q : Pieces) : Pieces :=
  { q with
    tail := if q.tail = some q.head then none else q.tail
    list := q.list.set q.head none
    head := q.head + 1
    off := 0 }

/-- The freed slots are cut off now and then. -/
def cut (q : Pieces) : Pieces :=
  if q.head ≥ 1024 ∧ q.head * 2 ≥ q.list.length then
    { q with list := q.list.drop q.head, tail := q.tail.map (· - q.head), head := 0 }
  else q

def shift (q : Pieces) : Pieces := q.free.cut

/-- `peek` over the pieces from the front. -/
def peekFrom (h : Heap) : List (Option View) → Nat → Nat → Bytes
  | [], _, _ => []
  | none :: _, _, _ => []
  | some p :: ps, off, n =>
    let k := min (p.len - off) n
    if n = 0 then [] else (p.subarray off (off + k)).read h ++ peekFrom h ps 0 (n - k)

def peek (h : Heap) (q : Pieces) (n : Nat) : Bytes :=
  peekFrom h (q.list.drop q.head) q.off (min n q.bytes)

def byteFrom (h : Heap) : List (Option View) → Nat → Nat
  | [], _ => 0
  | none :: _, _ => 0
  | some p :: ps, i => if i < p.len then byteAt (p.read h) i else byteFrom h ps (i - p.len)

def byteAt (h : Heap) (q : Pieces) (i : Nat) : Nat := byteFrom h (q.list.drop q.head) (i + q.off)

/-- The loop of `consume`; every turn takes a byte at least, so `n` turns are enough. -/
def consumeLoop (n pre : Nat) : Nat → Heap → Pieces → Nat → Option View → Heap × Pieces × Option View
  | 0, h, q, _, out => (h, q, out)
  | fuel + 1, h, q, got, out =>
    if got < n then
      match q.list.getD q.head none with
      | none => (h, q, out)
      | some piece =>
        let k := min (piece.len - q.off) (n - got)
        let bytes := (piece.subarray q.off (q.off + k)).read h
        let (h, out) : Heap × View := match out with
          | none =>
            if k = n then (h, piece.subarray q.off (q.off + k))
            else ((h ++ [List.replicate n 0]).put h.length (pre + got) bytes, ⟨h.length, 0, n⟩)
          | some out => (h.put out.buf (out.off + (pre + got)) bytes, out)
        let q := { q with off := q.off + k }
        let q := if q.off = piece.len then q.shift else q
        consumeLoop n pre fuel h q (got + k) (some out)
    else (h, q, out)

def consume (h : Heap) (q : Pieces) (n : Nat) (out : Option View) (pre : Nat) :
    Heap × Pieces × Option View :=
  consumeLoop n pre n h { q with bytes := q.bytes - n } 0 out

def take (h : Heap) (q : Pieces) (n : Nat) : Heap × Pieces × Option View := consume h q n none 0

/-- The buffer of the copy is a new one. -/
def takeCopy (h : Heap) (q : Pieces) (n pre : Nat) : Heap × Pieces × Option View :=
  consume (h ++ [List.replicate (pre + n) 0]) q n (some ⟨h.length, 0, pre + n⟩) pre

/-- The bytes the queue holds. -/
def contents (h : Heap) (q : Pieces) : Bytes :=
  ((q.list.drop q.head).flatMap fun p => (p.map (View.read h)).getD []).drop q.off

end Pieces

section Bytes

variable {x : Bytes} {off : Nat} {bytes : Bytes}

theorem overwrite_length (h : off + bytes.length ≤ x.length) : (overwrite x off bytes).length = x.length := by
  simp only [overwrite, List.length_append, List.length_take, List.length_drop]
  omega

/-- Up to where something is written, and past it. -/
theorem overwrite_take (bytes : Bytes) (h : off ≤ x.length) (k : Nat) (hk : k ≤ off) :
    (overwrite x off bytes).take k = x.take k := by
  unfold overwrite
  rw [List.append_assoc, List.take_append_of_le_length (by simp; omega), List.take_take,
    Nat.min_eq_left hk]

theorem overwrite_take_end (bytes : Bytes) (h : off ≤ x.length) :
    (overwrite x off bytes).take (off + bytes.length) = x.take off ++ bytes := by
  unfold overwrite
  have hlen : (x.take off ++ bytes).length = off + bytes.length := by simp; omega
  rw [← hlen, List.take_left]

end Bytes

namespace View

variable {h : Heap} {v : View}

theorem read_length (hv : v.InHeap h) : (v.read h).length = v.len := by
  have := hv.2
  simp only [read, List.length_take, List.length_drop]
  omega

theorem read_congr {h' : Heap} (he : h'.getD v.buf [] = h.getD v.buf []) : v.read h' = v.read h := by
  unfold read
  rw [he]

theorem read_sub (h : Heap) {a b : Nat} (hb : b ≤ v.len) :
    (v.subarray a b).read h = ((v.read h).drop a).take (b - a) := by
  simp only [read, subarray, List.drop_take, List.take_take, List.drop_drop]
  rw [Nat.min_eq_left (by omega)]

end View

namespace Heap

variable {h : Heap}

theorem alloc_old (bytes : Bytes) {b : Nat} (hb : b < h.length) :
    (h ++ [bytes]).getD b [] = h.getD b [] := by
  simp [List.getElem?_append_left hb]

theorem alloc_new (bytes : Bytes) : (h ++ [bytes]).getD h.length [] = bytes := by simp

@[simp] theorem put_length (buf off : Nat) (bytes : Bytes) : (h.put buf off bytes).length = h.length :=
  List.length_modify _ _ _

theorem put_other {buf b : Nat} (off : Nat) (bytes : Bytes) (hb : b ≠ buf) :
    (h.put buf off bytes).getD b [] = h.getD b [] := by
  simp only [put, List.getD_eq_getElem?_getD, List.getElem?_modify_ne _ _ (Ne.symm hb)]

theorem put_same {buf : Nat} (off : Nat) (bytes : Bytes) (hb : buf < h.length) :
    (h.put buf off bytes).getD buf [] = overwrite (h.getD buf []) off bytes := by
  simp [put, hb]

end Heap

/-- A view grown in place by what is written behind it. -/
theorem View.read_grown {h : Heap} {v : View} (hv : v.InHeap h) (bytes : Bytes)
    (hfits : v.off + v.len + bytes.length ≤ (h.getD v.buf []).length) :
    (⟨v.buf, v.off, v.len + bytes.length⟩ : View).InHeap (h.put v.buf (v.off + v.len) bytes) ∧
    (⟨v.buf, v.off, v.len + bytes.length⟩ : View).read (h.put v.buf (v.off + v.len) bytes) =
      v.read h ++ bytes := by
  have hbuf := Heap.put_same (v.off + v.len) bytes hv.1
  refine ⟨⟨by rw [Heap.put_length]; exact hv.1, ?_⟩, ?_⟩
  · show v.off + (v.len + bytes.length) ≤ ((h.put v.buf (v.off + v.len) bytes).getD v.buf []).length
    rw [hbuf, overwrite_length hfits]
    omega
  · have hend := congrArg (List.drop v.off) (overwrite_take_end bytes hv.2)
    have hroom := hv.2
    rw [List.drop_take, List.drop_append_of_le_length (by rw [List.length_take]; omega), List.drop_take,
      Nat.add_assoc v.off, Nat.add_sub_cancel_left, Nat.add_sub_cancel_left] at hend
    unfold View.read
    rw [hbuf]
    exact hend

/-- Two strings at the start of a new buffer that has room for them. -/
theorem gathered_take {a b : Bytes} {n : Nat} (hn : a.length + b.length ≤ n) :
    (overwrite (overwrite (List.replicate n 0) 0 a) a.length b).take (a.length + b.length) = a ++ b := by
  have h₁ : 0 + a.length ≤ (List.replicate n (0 : UInt8)).length := by
    rw [List.length_replicate]
    omega
  have hfirst := overwrite_take_end a (Nat.le_trans (Nat.le_add_right 0 _) h₁)
  rw [Nat.zero_add, List.take_zero, List.nil_append] at hfirst
  have hlen := overwrite_length h₁
  rw [List.length_replicate] at hlen
  rw [overwrite_take_end _ (by rw [hlen]; omega), hfirst]

/-- A queue in good order, whose pieces are `vs`: it would write no buffer in `lent`, which were pushed,
and views none in `copied`, which were handed out. -/
structure Valid (lent copied : List Nat) (h : Heap) (q : Pieces) (vs : List View) : Prop where
  head : q.head ≤ q.list.length
  live : q.list.drop q.head = vs.map some
  pieces : ∀ v ∈ vs, 0 < v.len ∧ v.InHeap h
  front : ∀ v, vs.head? = some v → q.off < v.len
  empty : vs = [] → q.off = 0
  bytes : q.bytes + q.off = (vs.map View.len).sum
  tail : ∀ t, q.tail = some t → t + 1 = q.list.length ∧ vs ≠ []
  owned : q.tail ≠ none → q.tailOwned = true →
    ∃ ws v, vs = ws ++ [v] ∧ v.buf ∉ lent ∧ ∀ w ∈ ws, w.buf ≠ v.buf
  apart : ∀ v ∈ vs, v.buf ∉ copied
  lent : ∀ b ∈ lent, b < h.length
  copied : ∀ b ∈ copied, b < h.length

namespace Valid

variable {lent copied : List Nat} {h : Heap} {q : Pieces} {vs : List View}

theorem contents_eq (hq : Valid lent copied h q vs) :
    q.contents h = (vs.flatMap (View.read h)).drop q.off := by
  unfold Pieces.contents
  rw [hq.live, List.flatMap_map]
  rfl

theorem read_sum {vs : List View} (hvs : ∀ v ∈ vs, 0 < v.len ∧ v.InHeap h) :
    (vs.flatMap (View.read h)).length = (vs.map View.len).sum := by
  induction vs with
  | nil => rfl
  | cons v vs ih =>
    rw [List.flatMap_cons, List.length_append, List.map_cons, List.sum_cons,
      View.read_length (hvs v List.mem_cons_self).2, ih fun w hw => hvs w (List.mem_cons_of_mem _ hw)]

theorem contents_length (hq : Valid lent copied h q vs) : (q.contents h).length = q.bytes := by
  have hsum := read_sum hq.pieces
  have hb := hq.bytes
  rw [hq.contents_eq, List.length_drop, hsum]
  omega

theorem length_eq (hq : Valid lent copied h q vs) : q.list.length = q.head + vs.length := by
  have h₁ := hq.head
  have h₂ := congrArg List.length hq.live
  simp only [List.length_drop, List.length_map] at h₂
  omega

/-- Buffers that no piece views may change, and more may be made. -/
theorem heap (hq : Valid lent copied h q vs) (h' : Heap) (hlen : h.length ≤ h'.length)
    (hsame : ∀ v ∈ vs, h'.getD v.buf [] = h.getD v.buf []) :
    Valid lent copied h' q vs ∧ q.contents h' = q.contents h := by
  have hq' : Valid lent copied h' q vs := { hq with
    pieces := fun v hv => by
      obtain ⟨h₁, h₂, h₃⟩ := hq.pieces v hv
      exact ⟨h₁, by omega, by rw [hsame v hv]; exact h₃⟩
    lent := fun b hb => Nat.lt_of_lt_of_le (hq.lent b hb) hlen
    copied := fun b hb => Nat.lt_of_lt_of_le (hq.copied b hb) hlen }
  refine ⟨hq', ?_⟩
  rw [hq'.contents_eq, hq.contents_eq]
  refine congrArg (List.drop q.off) (List.flatMap_congr fun v hv => ?_)
  exact View.read_congr (hsame v hv)

/-- What is not taken from the front, and one more piece at the end. -/
theorem contents_snoc {q' : Pieces} (hq : Valid lent copied h q vs) {piece : View}
    (hq' : Valid lent copied h q' (vs ++ [piece])) (hoff : q'.off = q.off) :
    q'.contents h = q.contents h ++ piece.read h := by
  have hsum := read_sum hq.pieces
  have hb := hq.bytes
  rw [hq.contents_eq, hq'.contents_eq, List.flatMap_append, hoff, List.drop_append_of_le_length (by omega)]
  simp

/-- A piece at the end. -/
theorem snoc (hq : Valid lent copied h q vs) {piece : View} (hpos : 0 < piece.len) (hp : piece.InHeap h)
    (hapart : piece.buf ∉ copied) (q' : Pieces) (hlist : q'.list = q.list ++ [some piece]) (hhead : q'.head = q.head)
    (hoff : q'.off = q.off) (hbytes : q'.bytes = q.bytes + piece.len)
    (htail : ∀ t, q'.tail = some t → t = q.list.length ∧ q'.tailOwned = false) :
    Valid lent copied h q' (vs ++ [piece]) where
  head := by
    have := hq.head
    rw [hhead, hlist, List.length_append]
    omega
  live := by
    rw [hhead, hlist, List.drop_append_of_le_length hq.head, hq.live]
    simp
  pieces v hv := by
    rcases List.mem_append.mp hv with hv | hv
    · exact hq.pieces v hv
    · rw [List.mem_singleton.mp hv]
      exact ⟨hpos, hp⟩
  front v hv := by
    rw [hoff]
    cases vs with
    | nil =>
      rw [List.nil_append, List.head?_cons, Option.some.injEq] at hv
      rw [hq.empty rfl, ← hv]
      exact hpos
    | cons w ws => exact hq.front v hv
  empty hnil := by simp at hnil
  bytes := by
    have := hq.bytes
    rw [hoff, hbytes, List.map_append, List.sum_append]
    simp only [List.map_cons, List.map_nil, List.sum_cons, List.sum_nil]
    omega
  tail t ht := by
    rw [(htail t ht).1, hlist, List.length_append]
    exact ⟨rfl, by simp⟩
  owned hne hown := by
    obtain ⟨t, ht⟩ := Option.ne_none_iff_exists'.mp hne
    rw [(htail t ht).2] at hown
    cases hown
  apart v hv := by
    rcases List.mem_append.mp hv with hv | hv
    · exact hq.apart v hv
    · rw [List.mem_singleton.mp hv]
      exact hapart
  lent := hq.lent
  copied := hq.copied

/-- The slot of the accumulator, and what is put there. -/
theorem tail_slot (hq : Valid lent copied h q vs) {t : Nat} (ht : q.tail = some t) :
    ∃ ws cur, vs = ws ++ [cur] ∧ q.list.getD t none = some cur ∧
      ∀ x, (q.list.set t (some x)).drop q.head = (ws ++ [x]).map some := by
  obtain ⟨hlast, hne⟩ := hq.tail t ht
  have hlen := hq.length_eq
  obtain ⟨ws, cur, rfl⟩ := (List.eq_nil_or_concat vs).resolve_left hne
  rw [List.concat_eq_append] at hlen ⊢
  rw [List.length_append, List.length_singleton] at hlen
  have hlive := hq.live
  rw [List.concat_eq_append, List.map_append] at hlive
  refine ⟨ws, cur, rfl, ?_, fun x => ?_⟩
  · have hget := congrArg (fun l => l[ws.length]?) hlive
    simp only [List.getElem?_drop] at hget
    rw [show q.head + ws.length = t by omega] at hget
    rw [List.getD_eq_getElem?_getD, hget, List.getElem?_append_right (by simp)]
    simp
  · rw [List.drop_set, if_neg (by omega), hlive, show t - q.head = ws.length by omega,
      List.set_append_right _ _ (by simp)]
    simp

/-- The accumulator becomes `x`, which holds `bytes` more. -/
theorem regrow {ws : List View} {cur x : View} (hq : Valid lent copied h q (ws ++ [cur])) {h' : Heap}
    {bytes : Bytes} {t : Nat} (hlen : h.length ≤ h'.length)
    (hsame : ∀ w ∈ ws, h'.getD w.buf [] = h.getD w.buf []) (hx : x.InHeap h')
    (hread : x.read h' = cur.read h ++ bytes) (hxlen : x.len = cur.len + bytes.length)
    (hlent : x.buf ∉ lent) (hcopied : x.buf ∉ copied) (hapart : ∀ w ∈ ws, w.buf ≠ x.buf)
    (hset : (q.list.set t (some x)).drop q.head = (ws ++ [x]).map some) :
    let q' := { q with bytes := q.bytes + bytes.length, list := q.list.set t (some x), tailOwned := true }
    Valid lent copied h' q' (ws ++ [x]) ∧ q'.contents h' = q.contents h ++ bytes := by
  intro q'
  have hsum := hq.bytes
  rw [List.map_append, List.sum_append] at hsum
  simp only [List.map_cons, List.map_nil, List.sum_cons, List.sum_nil] at hsum
  have hold : ∀ w ∈ ws, 0 < w.len ∧ w.InHeap h := fun w hw => hq.pieces w (List.mem_append_left _ hw)
  have hcur := hq.pieces cur (List.mem_append_right _ (List.mem_singleton.mpr rfl))
  have hoff : q.off ≤ (ws.flatMap (View.read h)).length + cur.len := by
    rw [read_sum hold]
    omega
  have hq' : Valid lent copied h' q' (ws ++ [x]) := {
    head := by
      show q.head ≤ (q.list.set t (some x)).length
      rw [List.length_set]
      exact hq.head
    live := hset
    pieces := fun v hv => by
      rcases List.mem_append.mp hv with hv | hv
      · obtain ⟨h₁, h₂, h₃⟩ := hold v hv
        exact ⟨h₁, by omega, by rw [hsame v hv]; exact h₃⟩
      · rw [List.mem_singleton.mp hv]
        exact ⟨by omega, hx⟩
    front := fun v hv => by
      cases ws with
      | nil =>
        have := hq.front cur rfl
        rw [List.nil_append, List.head?_cons, Option.some.injEq] at hv
        rw [← hv]
        show q.off < x.len
        omega
      | cons w ws => exact hq.front v hv
    empty := fun hnil => by simp at hnil
    bytes := by
      show q.bytes + bytes.length + q.off = _
      rw [List.map_append, List.sum_append]
      simp only [List.map_cons, List.map_nil, List.sum_cons, List.sum_nil]
      omega
    tail := fun k hk => by
      show k + 1 = (q.list.set t (some x)).length ∧ _
      rw [List.length_set]
      exact ⟨(hq.tail k hk).1, by simp⟩
    owned := fun _ _ => ⟨ws, x, rfl, hlent, hapart⟩
    apart := fun v hv => by
      rcases List.mem_append.mp hv with hv | hv
      · exact hq.apart v (List.mem_append_left _ hv)
      · rw [List.mem_singleton.mp hv]
        exact hcopied
    lent := fun b hb => Nat.lt_of_lt_of_le (hq.lent b hb) hlen
    copied := fun b hb => Nat.lt_of_lt_of_le (hq.copied b hb) hlen }
  refine ⟨hq', ?_⟩
  have hws : ws.flatMap (View.read h') = ws.flatMap (View.read h) :=
    List.flatMap_congr fun w hw => View.read_congr (hsame w hw)
  have hcurlen : (cur.read h).length = cur.len := View.read_length hcur.2
  rw [hq'.contents_eq, hq.contents_eq, List.flatMap_append, List.flatMap_append, hws,
    List.flatMap_singleton, List.flatMap_singleton, hread, ← List.append_assoc]
  exact List.drop_append_of_le_length (by rw [List.length_append, hcurlen]; exact hoff)

/-- `push` adds the bytes of its piece at the end and writes no buffer it was given. -/
theorem push (hq : Valid lent copied h q vs) {piece : View} (hp : piece.InHeap h)
    (hpiece : piece.buf ∉ copied) :
    ∃ ws, Valid lent copied (q.push h piece).1 (q.push h piece).2 ws ∧
      (q.push h piece).2.contents (q.push h piece).1 = q.contents h ++ piece.read h ∧
      (∀ b, b ∈ lent ∨ b ∈ copied → (q.push h piece).1.getD b [] = h.getD b []) ∧
      h.length ≤ (q.push h piece).1.length := by
  have hplen := View.read_length hp
  unfold Pieces.push
  by_cases hzero : piece.len = 0
  · have hnil : piece.read h = [] := List.length_eq_zero_iff.mp (by omega)
    rw [if_pos hzero, hnil, List.append_nil]
    exact ⟨vs, hq, rfl, fun _ _ => rfl, Nat.le_refl _⟩
  rw [if_neg hzero]
  dsimp only
  by_cases hlarge : piece.len ≥ q.mergeBelow
  · rw [if_pos hlarge]
    have hq' := hq.snoc (Nat.pos_of_ne_zero hzero) hp hpiece { q with
      bytes := q.bytes + piece.len
      list := q.list ++ [some piece]
      tail := none } rfl rfl rfl rfl nofun
    exact ⟨_, hq', hq.contents_snoc hq' rfl, fun _ _ => rfl, Nat.le_refl _⟩
  rw [if_neg hlarge]
  cases ht : q.tail with
  | none =>
    have hq' := hq.snoc (Nat.pos_of_ne_zero hzero) hp hpiece { q with
      bytes := q.bytes + piece.len
      list := q.list ++ [some piece]
      tail := some q.list.length
      tailOwned := false } rfl rfl rfl rfl (by rintro t ⟨⟩; exact ⟨rfl, rfl⟩)
    exact ⟨_, hq', hq.contents_snoc hq' rfl, fun _ _ => rfl, Nat.le_refl _⟩
  | some t =>
    obtain ⟨ws, cur, rfl, hcur, hset⟩ := hq.tail_slot ht
    have hcurin := hq.pieces cur (List.mem_append_right _ (List.mem_singleton.mpr rfl))
    have hcurlen := View.read_length hcurin.2
    dsimp only
    rw [hcur]
    dsimp only
    have hbuf : ∀ w ∈ ws, w.buf < h.length :=
      fun w hw => (hq.pieces w (List.mem_append_left _ hw)).2.1
    have hroomy := hp.2
    have hnotcopied := hq.apart cur (List.mem_append_right _ (List.mem_singleton.mpr rfl))
    have hcurroom := hcurin.2.2
    split
    · rename_i hgrow
      obtain ⟨hown, hroom⟩ := hgrow
      obtain ⟨ws', cur', heq, hnot, hapart⟩ := hq.owned (by rw [ht]; simp) hown
      obtain ⟨rfl, hlast⟩ := List.append_inj' heq rfl
      obtain rfl := List.singleton_injective hlast
      obtain ⟨hin, hread⟩ := View.read_grown hcurin.2 (piece.read h) (by omega)
      obtain ⟨hvalid, hcontents⟩ := hq.regrow (by rw [Heap.put_length])
        (fun w hw => Heap.put_other _ _ (hapart w hw)) hin hread rfl hnot hnotcopied hapart (hset _)
      rw [hplen, ← hown, ht] at hvalid hcontents
      refine ⟨_, hvalid, hcontents, fun b hb => Heap.put_other _ _ fun he => ?_, by rw [Heap.put_length]⟩
      rcases hb with hb | hb
      · exact hnot (he ▸ hb)
      · exact hnotcopied (he ▸ hb)
    · have hbuffer := gathered_take (a := cur.read h) (b := piece.read h)
        (n := max q.mergeBelow ((cur.len + piece.len) * 2)) (by omega)
      rw [hcurlen, hplen] at hbuffer
      generalize hnew : overwrite (overwrite (List.replicate _ 0) 0 (cur.read h)) cur.len (piece.read h) =
        buf at hbuffer ⊢
      have hwant : cur.len + piece.len ≤ buf.length := by
        have := congrArg List.length hbuffer
        rw [List.length_take, List.length_append] at this
        omega
      have hread : (⟨h.length, 0, cur.len + piece.len⟩ : View).read (h ++ [buf]) =
          cur.read h ++ piece.read h := by
        rw [← hbuffer]
        simp [View.read]
      obtain ⟨hvalid, hcontents⟩ := hq.regrow (by simp) (fun w hw => Heap.alloc_old _ (hbuf w hw))
        ⟨by simp, by rw [Heap.alloc_new]; simpa using hwant⟩ hread (by rw [hplen])
        (fun hmem => absurd (hq.lent _ hmem) (Nat.lt_irrefl _))
        (fun hmem => absurd (hq.copied _ hmem) (Nat.lt_irrefl _)) (fun w hw => Nat.ne_of_lt (hbuf w hw))
        (hset _)
      rw [hplen, ht] at hvalid hcontents
      exact ⟨_, hvalid, hcontents, fun b hb => Heap.alloc_old _ (hb.elim (hq.lent b) (hq.copied b)), by simp⟩

variable {v : View} {ws : List View}

theorem front_slot (hq : Valid lent copied h q (v :: ws)) : q.list.getD q.head none = some v := by
  have hget := congrArg (fun l => l[0]?) hq.live
  simp only [List.getElem?_drop, Nat.add_zero, List.map_cons, List.getElem?_cons_zero] at hget
  rw [List.getD_eq_getElem?_getD, hget]
  rfl

theorem free (hq : Valid lent copied h q (v :: ws)) {n : Nat} (hn : n = (ws.map View.len).sum) :
    Valid lent copied h { q.free with bytes := n } ws := by
  have hlen := hq.length_eq
  rw [List.length_cons] at hlen
  have hpieces : ∀ w ∈ ws, 0 < w.len ∧ w.InHeap h := fun w hw => hq.pieces w (List.mem_cons_of_mem _ hw)
  have htail : ∀ t, q.free.tail = some t → q.tail = some t ∧ t + 1 = q.list.length ∧ ws ≠ [] := by
    intro t ht
    unfold Pieces.free at ht
    dsimp only at ht
    split at ht
    · cases ht
    · rename_i hne
      obtain ⟨hlast, -⟩ := hq.tail t ht
      refine ⟨ht, hlast, fun hnil => hne ?_⟩
      rw [hnil, List.length_nil] at hlen
      rw [ht, show t = q.head by omega]
  exact {
    head := by
      show q.head + 1 ≤ (q.list.set q.head none).length
      rw [List.length_set]
      omega
    live := by
      show (q.list.set q.head none).drop (q.head + 1) = _
      rw [List.drop_set, if_pos (Nat.lt_succ_self _), ← List.drop_drop, hq.live]
      rfl
    pieces := hpieces
    front := fun w hw => (hpieces w (List.mem_of_mem_head? hw)).1
    empty := fun _ => rfl
    bytes := hn
    tail := fun t ht => by
      obtain ⟨-, hlast, hne⟩ := htail t ht
      show t + 1 = (q.list.set q.head none).length ∧ _
      rw [List.length_set]
      exact ⟨hlast, hne⟩
    owned := fun hne hown => by
      obtain ⟨t, ht⟩ := Option.ne_none_iff_exists'.mp hne
      obtain ⟨hsome, -, hws⟩ := htail t ht
      obtain ⟨us, w, heq, hnot, hapart⟩ := hq.owned (by rw [hsome]; simp) hown
      cases us with
      | nil =>
        rw [List.nil_append, List.cons.injEq] at heq
        exact absurd heq.2 hws
      | cons u us =>
        rw [List.cons_append, List.cons.injEq] at heq
        exact ⟨us, w, heq.2, hnot, fun x hx => hapart x (List.mem_cons_of_mem _ hx)⟩
    apart := fun w hw => hq.apart w (List.mem_cons_of_mem _ hw)
    lent := hq.lent
    copied := hq.copied }

theorem cut (hq : Valid lent copied h q vs) : Valid lent copied h q.cut vs := by
  unfold Pieces.cut
  split
  · exact { hq with
      head := Nat.zero_le _
      live := hq.live
      tail := fun t ht => by
        have hlen := hq.length_eq
        obtain ⟨k, hk, rfl⟩ := Option.map_eq_some_iff.mp ht
        obtain ⟨hlast, hne⟩ := hq.tail k hk
        have hpos := List.length_pos_iff.mpr hne
        refine ⟨?_, hne⟩
        show k - q.head + 1 = (q.list.drop q.head).length
        rw [List.length_drop]
        omega
      owned := fun hne hown => hq.owned (fun hnone => hne (by rw [hnone]; rfl)) hown }
  · exact hq

theorem shift_bytes (q : Pieces) (n : Nat) : ({ q with bytes := n } : Pieces).shift = { q.shift with bytes := n } := by
  unfold Pieces.shift Pieces.cut Pieces.free
  dsimp only
  split <;> rfl

/-- The front piece is used up. -/
theorem shift (hq : Valid lent copied h q (v :: ws)) {n : Nat} (hn : n = (ws.map View.len).sum) :
    Valid lent copied h ({ q with bytes := n } : Pieces).shift ws :=
  (hq.free hn).cut

/-- Some of the front piece is taken, or all of it. -/
theorem advance (hq : Valid lent copied h q (v :: ws)) {k : Nat} (hpos : 0 < k) (hk : k ≤ v.len - q.off) {n : Nat}
    (hn : n = q.bytes - k) :
    let q₁ : Pieces := { q with off := q.off + k, bytes := n }
    let q₂ := if q₁.off = v.len then q₁.shift else q₁
    (∃ us, Valid lent copied h q₂ us ∧ us ⊆ v :: ws) ∧ q₂.contents h = (q.contents h).drop k ∧
    (v.subarray q.off (q.off + k)).read h = (q.contents h).take k := by
  have hv := hq.pieces v List.mem_cons_self
  have hsum := hq.bytes
  have hvlen := View.read_length hv.2
  rw [List.map_cons, List.sum_cons] at hsum
  have hcontents : q.contents h = (v.read h).drop q.off ++ ws.flatMap (View.read h) := by
    rw [hq.contents_eq, List.flatMap_cons, List.drop_append_of_le_length (by omega)]
  have hdroplen : ((v.read h).drop q.off).length = v.len - q.off := by rw [List.length_drop, hvlen]
  have htaken : (v.subarray q.off (q.off + k)).read h = (q.contents h).take k := by
    rw [hcontents, View.read_sub h (by omega), Nat.add_sub_cancel_left,
      List.take_append_of_le_length (by omega)]
  intro q₁ q₂
  by_cases hfull : q.off + k = v.len
  · have hq₂ : q₂ = ({ q with bytes := n } : Pieces).shift := if_pos hfull
    have hshift := hq.shift (n := n) (by omega)
    rw [hq₂]
    refine ⟨⟨ws, hshift, List.subset_cons_self v ws⟩, ?_, htaken⟩
    have hoff : ({ q with bytes := n } : Pieces).shift.off = 0 := by
      unfold Pieces.shift Pieces.cut Pieces.free
      dsimp only
      split <;> rfl
    rw [hshift.contents_eq, hoff, List.drop_zero, hcontents, show k = ((v.read h).drop q.off).length by omega,
      List.drop_left]
  · have hq₂ : q₂ = q₁ := if_neg hfull
    have hvalid : Valid lent copied h q₁ (v :: ws) := { hq with
      front := fun w hw => by
        rw [List.head?_cons, Option.some.injEq] at hw
        rw [← hw]
        show q.off + k < v.len
        omega
      empty := nofun
      bytes := by
        show n + (q.off + k) = _
        rw [List.map_cons, List.sum_cons]
        omega }
    rw [hq₂]
    refine ⟨⟨v :: ws, hvalid, fun _ h => h⟩, ?_, htaken⟩
    rw [hvalid.contents_eq, hq.contents_eq, List.drop_drop]

/-- What is read of the front without taking it. -/
theorem byteAt (hq : Valid lent copied h q vs) (i : Nat) :
    q.byteAt h i = SeedTransport.byteAt (q.contents h) i := by
  have hloop : ∀ (vs : List View), (∀ v ∈ vs, 0 < v.len ∧ v.InHeap h) → ∀ j,
      Pieces.byteFrom h (vs.map some) j = SeedTransport.byteAt (vs.flatMap (View.read h)) j := by
    intro vs
    induction vs with
    | nil => intro _ j; simp [Pieces.byteFrom, SeedTransport.byteAt]
    | cons v vs ih =>
      intro hvs j
      have hlen := View.read_length (hvs v List.mem_cons_self).2
      rw [List.map_cons, Pieces.byteFrom, List.flatMap_cons]
      split
      · rename_i hlt
        rw [byteAt_append_left _ _ _ (by omega)]
      · rename_i hge
        rw [ih (fun w hw => hvs w (List.mem_cons_of_mem _ hw))]
        have hsplit := byteAt_append_right (v.read h) (vs.flatMap (View.read h)) (j - v.len)
        rw [← hsplit, hlen, show v.len + (j - v.len) = j by omega]
  unfold Pieces.byteAt
  rw [hq.live, hloop vs hq.pieces, hq.contents_eq]
  unfold SeedTransport.byteAt
  rw [List.getD_eq_getElem?_getD, List.getD_eq_getElem?_getD, List.getElem?_drop, Nat.add_comm]

theorem peek (hq : Valid lent copied h q vs) (n : Nat) : q.peek h n = (q.contents h).take n := by
  have hloop : ∀ (vs : List View), (∀ v ∈ vs, 0 < v.len ∧ v.InHeap h) → ∀ off n,
      (∀ v, vs.head? = some v → off < v.len) →
      Pieces.peekFrom h (vs.map some) off n = ((vs.flatMap (View.read h)).drop off).take n := by
    intro vs
    induction vs with
    | nil => intro _ off n _; simp [Pieces.peekFrom]
    | cons v vs ih =>
      intro hvs off n hoff
      have hv := hvs v List.mem_cons_self
      have hlen := View.read_length hv.2
      have hlt := hoff v rfl
      have hws : ∀ w ∈ vs, 0 < w.len ∧ w.InHeap h := fun w hw => hvs w (List.mem_cons_of_mem _ hw)
      rw [List.map_cons, Pieces.peekFrom, List.flatMap_cons, List.drop_append_of_le_length (by omega)]
      split
      · rename_i hzero
        rw [hzero, List.take_zero]
      · rw [View.read_sub h (by omega), Nat.add_sub_cancel_left,
          ih hws 0 _ fun w hw => (hws w (List.mem_of_mem_head? hw)).1, List.drop_zero, List.take_append,
          List.length_drop, hlen]
        rcases Nat.le_total (v.len - off) n with hn | hn
        · rw [Nat.min_eq_left hn, List.take_of_length_le (i := v.len - off) (by rw [List.length_drop]; omega),
            List.take_of_length_le (i := n) (by rw [List.length_drop]; omega)]
        · rw [Nat.min_eq_right hn, Nat.sub_self, Nat.sub_eq_zero_of_le hn]
  have hbytes := hq.contents_length
  unfold Pieces.peek
  rw [hq.live, hloop vs hq.pieces _ _ hq.front, ← hq.contents_eq, ← hbytes, ← List.take_take,
    List.take_length]

/-- A buffer that no piece views is handed out. -/
theorem give (hq : Valid lent copied h q vs) {b : Nat} (hb : b < h.length) (hvs : ∀ v ∈ vs, v.buf ≠ b) :
    Valid lent (b :: copied) h q vs := { hq with
  apart := fun v hv hmem => by
    rcases List.mem_cons.mp hmem with he | he
    · exact hvs v hv he
    · exact hq.apart v hv he
  copied := fun c hc => by
    rcases List.mem_cons.mp hc with rfl | hc
    · exact hb
    · exact hq.copied c hc }

/-- A new buffer is lent. -/
theorem lend (hq : Valid lent copied h q vs) {b : Nat} (hb : b < h.length) (hvs : ∀ v ∈ vs, v.buf ≠ b) :
    Valid (b :: lent) copied h q vs := { hq with
  owned := fun hne hown => by
    obtain ⟨ws, v, rfl, hnot, hapart⟩ := hq.owned hne hown
    refine ⟨ws, v, rfl, fun hmem => ?_, hapart⟩
    rcases List.mem_cons.mp hmem with he | he
    · exact hvs v (List.mem_append_right _ (List.mem_singleton.mpr rfl)) he
    · exact hnot he
  lent := fun c hc => by
    rcases List.mem_cons.mp hc with rfl | hc
    · exact hb
    · exact hq.lent c hc }

/-- What is left where `n - got` bytes went to a buffer that no piece views. -/
structure Copied (lent copied : List Nat) (h : Heap) (q : Pieces) (out : View) (pre got n : Nat)
    (r : Heap × Pieces × Option View) : Prop where
  valid : ∃ us, Valid lent copied r.1 r.2.1 us ∧ ∀ v ∈ us, v.buf ≠ out.buf
  answer : r.2.2 = some out
  contents : r.2.1.contents r.1 = (q.contents h).drop (n - got)
  copy : r.1.getD out.buf [] = (h.getD out.buf []).take (pre + got) ++ (q.contents h).take (n - got)
  others : ∀ b, b ≠ out.buf → r.1.getD b [] = h.getD b []
  length : r.1.length = h.length

theorem copied_all {out : View} {pre n : Nat} (hq : Valid lent copied h q vs)
    (hbuf : (h.getD out.buf []).length = pre + n) (hvs : ∀ v ∈ vs, v.buf ≠ out.buf) :
    Copied lent copied h q out pre n n (h, q, some out) where
  valid := ⟨vs, hq, hvs⟩
  answer := rfl
  contents := by rw [Nat.sub_self, List.drop_zero]
  copy := by rw [Nat.sub_self, List.take_zero, List.append_nil, ← hbuf, List.take_length]
  others _ _ := rfl
  length := rfl

/-- The queue past a turn of `consume`, the bytes it was asked for counted back in. -/
theorem turn_bytes (q : Pieces) (k len n : Nat) :
    let q₁ : Pieces := { q with off := q.off + k }
    let q₂ := if q₁.off = len then q₁.shift else q₁
    ({ q₂ with bytes := q₂.bytes + n } : Pieces) =
      (let q₁ : Pieces := { q with off := q.off + k, bytes := q.bytes + n }
      if q₁.off = len then q₁.shift else q₁) := by
  dsimp only
  split
  · rw [← shift_bytes]
    have hbytes : ({ q with off := q.off + k } : Pieces).shift.bytes = q.bytes := by
      unfold Pieces.shift Pieces.cut Pieces.free
      dsimp only
      split <;> rfl
    rw [hbytes]
  · rfl

/-- The loop of `consume` into a buffer that no piece views. -/
theorem copyLoop (n pre fuel got : Nat) (out : View)
    (hq : Valid lent copied h { q with bytes := q.bytes + (n - got) } vs) (hgot : got ≤ n)
    (hfuel : n - got ≤ fuel) (hout : out.buf < h.length) (hoff : out.off = 0)
    (hbuf : (h.getD out.buf []).length = pre + n) (hvs : ∀ v ∈ vs, v.buf ≠ out.buf) :
    Copied lent copied h q out pre got n (Pieces.consumeLoop n pre fuel h q got (some out)) := by
  induction fuel generalizing h q vs got with
  | zero =>
    obtain rfl : got = n := by omega
    rw [Nat.sub_self] at hq
    exact copied_all hq hbuf hvs
  | succ fuel ih =>
    unfold Pieces.consumeLoop
    rcases Nat.lt_or_ge got n with hlt | hge
    · rw [if_pos hlt]
      cases vs with
      | nil =>
        have hempty := hq.bytes
        have hzero := hq.empty rfl
        simp only [List.map_nil, List.sum_nil] at hempty hzero
        omega
      | cons v ws =>
        have hfront := hq.front v rfl
        have hv := hq.pieces v List.mem_cons_self
        have hslot := hq.front_slot
        dsimp only at hfront hslot
        rw [hslot]
        dsimp only
        generalize hk : min (v.len - q.off) (n - got) = k
        have hvlen : ((v.subarray q.off (q.off + k)).read h).length = k := by
          rw [View.read_sub h (by omega), Nat.add_sub_cancel_left, List.length_take, List.length_drop,
            View.read_length hv.2]
          omega
        obtain ⟨⟨us, hvalid, hsub⟩, hcontents, htaken⟩ := hq.advance (k := k) (by omega)
          (by dsimp only; omega) (n := q.bytes + (n - (got + k))) (by dsimp only; omega)
        have hturn := turn_bytes q k v.len (n - (got + k))
        dsimp only at hvalid hcontents htaken hturn
        rw [← hturn] at hvalid hcontents
        generalize hq₂ : (if q.off + k = v.len then _ else _ : Pieces) = q₂ at hvalid hcontents ⊢
        have hcontents : q₂.contents h = (q.contents h).drop k := hcontents
        have htaken : (v.subarray q.off (q.off + k)).read h = (q.contents h).take k := htaken
        rw [htaken] at hvlen
        rw [hoff, Nat.zero_add, htaken]
        have hus : ∀ w ∈ us, w.buf ≠ out.buf := fun w hw => hvs w (hsub hw)
        obtain ⟨hvalid₁, hsame⟩ := hvalid.heap
          (h.put out.buf (pre + got) ((q.contents h).take k)) (by rw [Heap.put_length])
          (fun w hw => Heap.put_other _ _ (hus w hw))
        have hsame : q₂.contents (h.put out.buf (pre + got) ((q.contents h).take k)) = q₂.contents h :=
          hsame
        have hputbuf := Heap.put_same (h := h) (pre + got) ((q.contents h).take k) hout
        have hfits : pre + got + ((q.contents h).take k).length ≤ (h.getD out.buf []).length := by omega
        have hrest := ih _ hvalid₁ (by omega) (by omega) (by rw [Heap.put_length]; exact hout)
          (by rw [hputbuf, overwrite_length hfits, hbuf]) hus
        exact {
          valid := hrest.valid
          answer := hrest.answer
          contents := by
            rw [hrest.contents, hsame, hcontents, List.drop_drop]
            congr 1
            omega
          copy := by
            have htake := overwrite_take_end ((q.contents h).take k)
              (show pre + got ≤ (h.getD out.buf []).length by omega)
            rw [hvlen, Nat.add_assoc] at htake
            rw [hrest.copy, hsame, hcontents, hputbuf, htake, List.append_assoc, ← List.take_add]
            congr 2
            omega
          others := fun b hb => (hrest.others b hb).trans (Heap.put_other _ _ hb)
          length := hrest.length.trans (Heap.put_length _ _ _) }
    · obtain rfl : got = n := by omega
      rw [if_neg (Nat.lt_irrefl _)]
      rw [Nat.sub_self] at hq
      exact copied_all hq hbuf hvs

/-- `takeCopy` moves bytes from the front to a new buffer, which the queue keeps nothing of. -/
theorem takeCopy (hq : Valid lent copied h q vs) {n : Nat} (hn : n ≤ q.bytes) (pre : Nat) :
    let r := q.takeCopy h n pre
    (∃ us, Valid lent (h.length :: copied) r.1 r.2.1 us) ∧
    r.2.2 = some ⟨h.length, 0, pre + n⟩ ∧ r.2.1.contents r.1 = (q.contents h).drop n ∧
    r.1.getD h.length [] = List.replicate pre 0 ++ (q.contents h).take n ∧
    (∀ b, b < h.length → r.1.getD b [] = h.getD b []) ∧ r.1.length = h.length + 1 := by
  have hbuf : ∀ v ∈ vs, v.buf < h.length := fun v hv => (hq.pieces v hv).2.1
  have hcontents := hq.contents_length
  have hback : ({ q with bytes := q.bytes - n + (n - 0) } : Pieces) = q := by
    rw [show q.bytes - n + (n - 0) = q.bytes by omega]
  obtain ⟨hvalid, hsame⟩ := hq.heap (h ++ [List.replicate (pre + n) 0]) (by simp)
    (fun v hv => Heap.alloc_old _ (hbuf v hv))
  have hnew := Heap.alloc_new (h := h) (List.replicate (pre + n) 0)
  have hcopied := copyLoop (q := { q with bytes := q.bytes - n }) n pre n 0 ⟨h.length, 0, pre + n⟩
    (by rw [hback]; exact hvalid) (Nat.zero_le n)
    (by omega) (by simp) rfl (by rw [hnew, List.length_replicate]) (fun v hv => Nat.ne_of_lt (hbuf v hv))
  have hsame' : ({ q with bytes := q.bytes - n } : Pieces).contents (h ++ [List.replicate (pre + n) 0]) =
      q.contents h := hsame
  have hlen : (h ++ [List.replicate (pre + n) (0 : UInt8)]).length = h.length + 1 := by simp
  intro r
  obtain ⟨us, hus, hapart⟩ := hcopied.valid
  refine ⟨⟨us, hus.give (by rw [hcopied.length, hlen]; omega) hapart⟩, hcopied.answer, ?_, ?_,
    fun b hb => ?_, hcopied.length.trans hlen⟩
  · have h := hcopied.contents
    rwa [hsame', Nat.sub_zero] at h
  · have h := hcopied.copy
    rwa [hsame', hnew, List.take_replicate, Nat.add_zero, Nat.min_eq_left (Nat.le_add_right pre n),
      Nat.sub_zero] at h
  · exact (hcopied.others b (Nat.ne_of_lt hb)).trans (Heap.alloc_old _ hb)

theorem consumeLoop_done (n pre fuel : Nat) (h : Heap) (q : Pieces) (out : Option View) :
    Pieces.consumeLoop n pre fuel h q n out = (h, q, out) := by
  cases fuel with
  | zero => rfl
  | succ fuel => exact if_neg (Nat.lt_irrefl n)

/-- What `take` answers: a view of a piece, or of a new buffer. -/
structure Taken (h : Heap) (q : Pieces) (v : View) (n : Nat) (r : Heap × Pieces × Option View) : Prop where
  contents : r.2.1.contents r.1 = (q.contents h).drop n
  old : ∀ b, b < h.length → r.1.getD b [] = h.getD b []
  length : h.length ≤ r.1.length
  answer : ∃ g, r.2.2 = some g ∧ g.InHeap r.1 ∧ g.read r.1 = (q.contents h).take n ∧
    (g.buf = h.length ∨ g.buf = v.buf ∧ g.off + g.len ≤ v.off + v.len)

theorem take_front (hq : Valid lent copied h q (v :: ws)) {n : Nat} (hpos : 0 < n) (hn : n ≤ q.bytes) :
    (∃ us, Valid lent copied (q.take h n).1 (q.take h n).2.1 us) ∧ Taken h q v n (q.take h n) := by
  have hcontents := hq.contents_length
  have hsum := hq.bytes
  have hv := hq.pieces v List.mem_cons_self
  have hfront := hq.front v rfl
  have hbuf : ∀ w ∈ v :: ws, w.buf < h.length := fun w hw => (hq.pieces w hw).2.1
  obtain ⟨m, rfl⟩ : ∃ m, n = m + 1 := ⟨n - 1, by omega⟩
  generalize hk : min (v.len - q.off) (m + 1 - 0) = k
  obtain ⟨⟨us, hvalid, hsub⟩, hdrop, htaken⟩ := hq.advance (k := k) (by omega) (by omega)
    (n := q.bytes - (m + 1) + (m + 1 - k)) (by omega)
  have hturn := turn_bytes { q with bytes := q.bytes - (m + 1) } k v.len (m + 1 - k)
  dsimp only at hvalid hdrop hturn
  rw [← hturn] at hvalid hdrop
  unfold Pieces.take Pieces.consume Pieces.consumeLoop
  rw [if_pos (Nat.succ_pos m)]
  dsimp only
  rw [hq.front_slot]
  dsimp only
  rw [hk]
  generalize hq₂ : (if q.off + k = v.len then _ else _ : Pieces) = q₂ at hvalid hdrop ⊢
  have hdrop : q₂.contents h = (q.contents h).drop k := hdrop
  by_cases hall : k = m + 1
  · rw [show m + 1 - k = 0 by omega] at hvalid
    rw [hall] at hdrop
    rw [if_pos hall, Nat.zero_add, hall, consumeLoop_done]
    have hroom := hv.2.2
    refine ⟨⟨us, hvalid⟩, hdrop, fun _ _ => rfl, Nat.le_refl _, _, rfl, ⟨hv.2.1, ?_⟩, ?_, Or.inr ⟨rfl, ?_⟩⟩
    · show v.off + q.off + (q.off + (m + 1) - q.off) ≤ (h.getD v.buf []).length
      omega
    · rw [← hall]
      exact htaken
    · show v.off + q.off + (q.off + (m + 1) - q.off) ≤ v.off + v.len
      omega
  · rw [if_neg hall, Nat.zero_add k]
    have hkn : k ≤ m + 1 := by omega
    generalize hbytes : (v.subarray q.off (q.off + k)).read h = bytes
    have hlen : bytes.length = k := by
      rw [← hbytes, View.read_sub h (by omega), Nat.add_sub_cancel_left, List.length_take,
        List.length_drop, View.read_length hv.2]
      omega
    generalize hh₁ : Heap.put (h ++ [List.replicate (m + 1) 0]) h.length (0 + 0) bytes = h₁
    dsimp only
    have hlen₁ : h₁.length = h.length + 1 := by
      rw [← hh₁, Heap.put_length]
      simp
    have hnew : h₁.getD h.length [] = overwrite (List.replicate (m + 1) 0) 0 bytes := by
      rw [← hh₁, Heap.put_same _ _ (by simp), Heap.alloc_new]
    have hold : ∀ b, b < h.length → h₁.getD b [] = h.getD b [] := fun b hb => by
      rw [← hh₁, Heap.put_other _ _ (Nat.ne_of_lt hb), Heap.alloc_old _ hb]
    obtain ⟨hvalid₁, hsame⟩ := hvalid.heap h₁ (by omega) (fun w hw => hold _ (hbuf w (hsub hw)))
    have hsame : q₂.contents h₁ = q₂.contents h := hsame
    have hcopied := copyLoop _ 0 m _ ⟨h.length, 0, m + 1⟩ hvalid₁ hkn (by omega)
      (by dsimp only; omega) rfl
      (by
        dsimp only
        rw [hnew, overwrite_length (by rw [List.length_replicate]; omega), List.length_replicate]
        omega)
      (fun w hw => Nat.ne_of_lt (hbuf w (hsub hw)))
    have hread : (Pieces.consumeLoop (m + 1) 0 m h₁ q₂ k (some ⟨h.length, 0, m + 1⟩)).1.getD h.length [] =
        (q.contents h).take (m + 1) := by
      have hfirst := overwrite_take_end bytes (Nat.zero_le (List.replicate (m + 1) (0 : UInt8)).length)
      rw [hlen, List.take_zero, List.nil_append] at hfirst
      rw [hcopied.copy, hnew, hfirst, hsame, hdrop, ← hbytes, htaken, ← List.take_add,
        show k + (m + 1 - k) = m + 1 by omega]
    obtain ⟨us', hus', -⟩ := hcopied.valid
    refine ⟨⟨us', hus'⟩, ?_, fun b hb => (hcopied.others b (Nat.ne_of_lt hb)).trans (hold b hb), ?_,
      ⟨h.length, 0, m + 1⟩, hcopied.answer, ?_, ?_, Or.inl rfl⟩
    · rw [hcopied.contents, hsame, hdrop, List.drop_drop]
      congr 1
      omega
    · rw [hcopied.length]
      omega
    · have hmade : h.length < h₁.length := by omega
      refine ⟨Nat.lt_of_lt_of_eq hmade hcopied.length.symm, ?_⟩
      show 0 + (m + 1) ≤ _
      rw [hread, List.length_take]
      omega
    · unfold View.read
      rw [hread, List.drop_zero, List.take_take, Nat.min_self]

/-- `take` drops bytes from the front; a copy it may make is a new buffer. -/
theorem take (hq : Valid lent copied h q vs) {n : Nat} (hpos : 0 < n) (hn : n ≤ q.bytes) :
    let r := q.take h n
    (∃ us, Valid lent copied r.1 r.2.1 us) ∧ r.2.1.contents r.1 = (q.contents h).drop n ∧
    (∀ b, b < h.length → r.1.getD b [] = h.getD b []) ∧ h.length ≤ r.1.length := by
  cases vs with
  | nil =>
    have hsum := hq.bytes
    have hzero := hq.empty rfl
    simp only [List.map_nil, List.sum_nil] at hsum
    omega
  | cons v ws =>
    obtain ⟨hvalid, htaken⟩ := hq.take_front hpos hn
    exact ⟨hvalid, htaken.contents, htaken.old, htaken.length⟩

end Valid

/-- A heap and a queue in good order on it, with the buffers that were pushed and those handed out. -/
structure Queue where
  heap : Heap
  parts : Pieces
  lent : List Nat
  copied : List Nat
  valid : ∃ vs, Valid lent copied heap parts vs
  distinct : ∀ b ∈ copied, b ∉ lent

namespace Queue

/-- `new Pieces(mergeBelow)`. -/
def new (mergeBelow : Nat) : Queue where
  heap := []
  parts := { mergeBelow := mergeBelow }
  lent := []
  copied := []
  valid := ⟨[], ⟨Nat.le_refl _, rfl, nofun, nofun, fun _ => rfl, rfl, nofun, fun h => absurd rfl h, nofun,
    nofun, nofun⟩⟩
  distinct := nofun

def contents (q : Queue) : Bytes := q.parts.contents q.heap

theorem bytes_eq (q : Queue) : q.parts.bytes = q.contents.length := by
  obtain ⟨vs, hq⟩ := q.valid
  exact hq.contents_length.symm

theorem byteAt_eq (q : Queue) (i : Nat) : q.parts.byteAt q.heap i = byteAt q.contents i := by
  obtain ⟨vs, hq⟩ := q.valid
  exact hq.byteAt i

theorem peek_eq (q : Queue) (n : Nat) : q.parts.peek q.heap n = q.contents.take n := by
  obtain ⟨vs, hq⟩ := q.valid
  exact hq.peek n

theorem push_valid (q : Queue) (chunk : Bytes) :
    let r := q.parts.push (q.heap ++ [chunk]) ⟨q.heap.length, 0, chunk.length⟩
    (∃ vs, Valid (q.heap.length :: q.lent) q.copied r.1 r.2 vs) ∧
    r.2.contents r.1 = q.contents ++ chunk ∧
    (∀ b, b ∈ q.heap.length :: q.lent ∨ b ∈ q.copied → r.1.getD b [] = (q.heap ++ [chunk]).getD b []) := by
  obtain ⟨vs, hq⟩ := q.valid
  have hbuf : ∀ v ∈ vs, v.buf < q.heap.length := fun v hv => (hq.pieces v hv).2.1
  obtain ⟨hq₁, hsame⟩ := hq.heap (q.heap ++ [chunk]) (by simp)
    (fun v hv => Heap.alloc_old _ (hbuf v hv))
  have hq₂ := hq₁.lend (b := q.heap.length) (by simp) (fun v hv => Nat.ne_of_lt (hbuf v hv))
  have hnew := Heap.alloc_new (h := q.heap) chunk
  obtain ⟨ws, hvalid, hcontents, hkeep, -⟩ := hq₂.push
    (show View.InHeap _ ⟨q.heap.length, 0, chunk.length⟩ from
      ⟨by simp, by rw [hnew]; exact Nat.le_of_eq (Nat.zero_add _)⟩)
    (fun hmem => absurd (hq.copied _ hmem) (Nat.lt_irrefl _))
  refine ⟨⟨ws, hvalid⟩, ?_, hkeep⟩
  rw [hcontents, hsame]
  unfold View.read
  rw [hnew, List.drop_zero, List.take_length]
  rfl

/-- A chunk comes in a buffer of its own, which it is borrowed from. -/
def push (q : Queue) (chunk : Bytes) : Queue where
  heap := (q.parts.push (q.heap ++ [chunk]) ⟨q.heap.length, 0, chunk.length⟩).1
  parts := (q.parts.push (q.heap ++ [chunk]) ⟨q.heap.length, 0, chunk.length⟩).2
  lent := q.heap.length :: q.lent
  copied := q.copied
  valid := (q.push_valid chunk).1
  distinct := by
    obtain ⟨vs, hq⟩ := q.valid
    intro b hb hmem
    rcases List.mem_cons.mp hmem with rfl | hmem
    · exact Nat.lt_irrefl _ (hq.copied _ hb)
    · exact q.distinct b hb hmem

/-- Buffers that were pushed or handed out keep what they hold. -/
structure Keeps (q q' : Queue) : Prop where
  lent : ∀ b ∈ q.lent, b ∈ q'.lent
  copied : ∀ b ∈ q.copied, b ∈ q'.copied
  held : ∀ b, b ∈ q.lent ∨ b ∈ q.copied → q'.heap.getD b [] = q.heap.getD b []

theorem Keeps.refl (q : Queue) : q.Keeps q := ⟨fun _ h => h, fun _ h => h, fun _ _ => rfl⟩

theorem Keeps.trans {q q' q'' : Queue} (h : q.Keeps q') (h' : q'.Keeps q'') : q.Keeps q'' :=
  ⟨fun b hb => h'.lent b (h.lent b hb), fun b hb => h'.copied b (h.copied b hb),
    fun b hb => (h'.held b (hb.imp (h.lent b) (h.copied b))).trans (h.held b hb)⟩

@[simp] theorem push_contents (q : Queue) (chunk : Bytes) :
    (q.push chunk).contents = q.contents ++ chunk := (q.push_valid chunk).2.1

theorem push_keeps (q : Queue) (chunk : Bytes) : q.Keeps (q.push chunk) := by
  obtain ⟨vs, hq⟩ := q.valid
  refine ⟨fun b hb => List.mem_cons_of_mem _ hb, fun b hb => hb, fun b hb => ?_⟩
  exact ((q.push_valid chunk).2.2 b (hb.imp (List.mem_cons_of_mem _) id)).trans
    (Heap.alloc_old _ (hb.elim (hq.lent b) (hq.copied b)))

/-- The next `n` bytes are dropped; nobody asks for more than there are. -/
def take (q : Queue) (n : Nat) : Queue :=
  if hn : 0 < n ∧ n ≤ q.parts.bytes then {
    heap := (q.parts.take q.heap n).1
    parts := (q.parts.take q.heap n).2.1
    lent := q.lent
    copied := q.copied
    valid := by
      obtain ⟨vs, hq⟩ := q.valid
      exact (hq.take hn.1 hn.2).1
    distinct := q.distinct }
  else q

theorem take_contents (q : Queue) {n : Nat} (hn : n ≤ q.contents.length) :
    (q.take n).contents = q.contents.drop n := by
  obtain ⟨vs, hq⟩ := q.valid
  unfold take
  split
  · rename_i h
    exact (hq.take h.1 h.2).2.1
  · rename_i h
    rw [q.bytes_eq] at h
    obtain rfl : n = 0 := by omega
    rfl

theorem take_keeps (q : Queue) (n : Nat) : q.Keeps (q.take n) := by
  obtain ⟨vs, hq⟩ := q.valid
  unfold take
  split
  · rename_i h
    exact ⟨fun _ hb => hb, fun _ hb => hb,
      fun b hb => (hq.take h.1 h.2).2.2.1 b (hb.elim (hq.lent b) (hq.copied b))⟩
  · exact Keeps.refl q

/-- The next `n` bytes, behind `pre` free ones, and the number of the new buffer they are in. -/
def takeCopy (q : Queue) (n pre : Nat) : Queue × Nat :=
  if hn : n ≤ q.parts.bytes then ({
    heap := (q.parts.takeCopy q.heap n pre).1
    parts := (q.parts.takeCopy q.heap n pre).2.1
    lent := q.lent
    copied := q.heap.length :: q.copied
    valid := by
      obtain ⟨vs, hq⟩ := q.valid
      exact (hq.takeCopy hn pre).1
    distinct := by
      obtain ⟨vs, hq⟩ := q.valid
      intro b hb hmem
      rcases List.mem_cons.mp hb with rfl | hb
      · exact Nat.lt_irrefl _ (hq.lent _ hmem)
      · exact q.distinct b hb hmem }, q.heap.length)
  else (q, 0)

theorem takeCopy_spec (q : Queue) {n : Nat} (hn : n ≤ q.contents.length) (pre : Nat) :
    (q.takeCopy n pre).1.contents = q.contents.drop n ∧
    (q.takeCopy n pre).1.heap.getD (q.takeCopy n pre).2 [] = List.replicate pre 0 ++ q.contents.take n ∧
    (q.takeCopy n pre).2 ∈ (q.takeCopy n pre).1.copied ∧ (q.takeCopy n pre).2 ∉ q.copied ∧
    q.Keeps (q.takeCopy n pre).1 := by
  obtain ⟨vs, hq⟩ := q.valid
  have hbytes : n ≤ q.parts.bytes := by rwa [q.bytes_eq]
  obtain ⟨-, -, hcontents, hcopy, hold, -⟩ := hq.takeCopy hbytes pre
  unfold takeCopy
  rw [dif_pos hbytes]
  exact ⟨hcontents, hcopy, List.mem_cons_self,
    fun hmem => absurd (hq.copied _ hmem) (Nat.lt_irrefl _), fun _ hb => hb,
    fun _ hb => List.mem_cons_of_mem _ hb, fun b hb => hold b (hb.elim (hq.lent b) (hq.copied b))⟩

/-- The buffers the queue views pieces of. -/
def views (q : Queue) : List Nat := (q.parts.list.drop q.parts.head).filterMap fun p => p.map View.buf

/-- No piece is a view of a buffer that was handed out. -/
theorem views_copied (q : Queue) : ∀ b ∈ q.views, b ∉ q.copied := by
  obtain ⟨vs, hq⟩ := q.valid
  intro b hb
  unfold views at hb
  rw [hq.live] at hb
  obtain ⟨p, hp, he⟩ := List.mem_filterMap.mp hb
  obtain ⟨v, hv, rfl⟩ := List.mem_map.mp hp
  obtain rfl := Option.some.inj he
  exact hq.apart v hv

end Queue

end SeedTransport.Framing
