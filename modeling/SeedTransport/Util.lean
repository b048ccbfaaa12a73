import Mathlib

set_option autoImplicit false

namespace SeedTransport

/-! The byte helpers of `util.js` that packets and nonces are written with, and its byte
queue. -/

abbrev Bytes := List UInt8

/-- A byte read past the end is `undefined`, which the bit operators take as 0. -/
def byteAt (b : Bytes) (off : Nat) : Nat := (b.getD off 0).toNat

def writeU16BE (v : Nat) : Bytes := [UInt8.ofNat (v / 2 ^ 8), UInt8.ofNat v]

def readU16BE (b : Bytes) (off : Nat) : Nat := byteAt b off * 2 ^ 8 + byteAt b (off + 1)

def writeU32BE (v : Nat) : Bytes :=
  [UInt8.ofNat (v / 2 ^ 24), UInt8.ofNat (v / 2 ^ 16), UInt8.ofNat (v / 2 ^ 8), UInt8.ofNat v]

def readU32BE (b : Bytes) (off : Nat) : Nat :=
  byteAt b off * 2 ^ 24 + byteAt b (off + 1) * 2 ^ 16 +
    byteAt b (off + 2) * 2 ^ 8 + byteAt b (off + 3)

/-- Storing into a `Uint8Array` keeps the low eight bits, so only the low 48 bits of `v`
are written. -/
def writeU48BE (v : Nat) : Bytes :=
  [UInt8.ofNat (v / 2 ^ 40), UInt8.ofNat (v / 2 ^ 32), UInt8.ofNat (v / 2 ^ 24),
    UInt8.ofNat (v / 2 ^ 16), UInt8.ofNat (v / 2 ^ 8), UInt8.ofNat v]

def readU48BE (b : Bytes) (off : Nat) : Nat :=
  (byteAt b off * 2 ^ 8 + byteAt b (off + 1)) * 2 ^ 32 +
    (byteAt b (off + 2) * 2 ^ 24 + byteAt b (off + 3) * 2 ^ 16 +
      byteAt b (off + 4) * 2 ^ 8 + byteAt b (off + 5))

@[simp] theorem writeU16BE_length (v : Nat) : (writeU16BE v).length = 2 := rfl

@[simp] theorem writeU32BE_length (v : Nat) : (writeU32BE v).length = 4 := rfl

@[simp] theorem writeU48BE_length (v : Nat) : (writeU48BE v).length = 6 := rfl

theorem byteAt_append_right (a b : Bytes) (k : Nat) :
    byteAt (a ++ b) (a.length + k) = byteAt b k := by
  simp [byteAt, List.getD_eq_getElem?_getD, List.getElem?_append_right]

theorem byteAt_append_left (a b : Bytes) (k : Nat) (h : k < a.length) :
    byteAt (a ++ b) k = byteAt a k := by
  simp [byteAt, List.getD_eq_getElem?_getD, List.getElem?_append_left h]

theorem readU48BE_append (a b : Bytes) (k : Nat) :
    readU48BE (a ++ b) (a.length + k) = readU48BE b k := by
  simp only [readU48BE, Nat.add_assoc, byteAt_append_right]

theorem readU16BE_append (a b : Bytes) (k : Nat) :
    readU16BE (a ++ b) (a.length + k) = readU16BE b k := by
  simp only [readU16BE, Nat.add_assoc, byteAt_append_right]

theorem readU48BE_write (v : Nat) (b : Bytes) : readU48BE (writeU48BE v ++ b) 0 = v % 2 ^ 48 := by
  simp only [readU48BE, writeU48BE, byteAt, List.getD_eq_getElem?_getD, List.cons_append,
    List.getElem?_cons_zero, List.getElem?_cons_succ, Option.getD_some, UInt8.toNat_ofNat',
    Nat.zero_add]
  omega

theorem readU32BE_append (a b : Bytes) (k : Nat) :
    readU32BE (a ++ b) (a.length + k) = readU32BE b k := by
  simp only [readU32BE, Nat.add_assoc, byteAt_append_right]

theorem readU32BE_write (v : Nat) (b : Bytes) : readU32BE (writeU32BE v ++ b) 0 = v % 2 ^ 32 := by
  simp only [readU32BE, writeU32BE, byteAt, List.getD_eq_getElem?_getD, List.cons_append,
    List.getElem?_cons_zero, List.getElem?_cons_succ, Option.getD_some, UInt8.toNat_ofNat',
    Nat.zero_add]
  omega

theorem readU16BE_write (v : Nat) (b : Bytes) : readU16BE (writeU16BE v ++ b) 0 = v % 2 ^ 16 := by
  simp only [readU16BE, writeU16BE, byteAt, List.getD_eq_getElem?_getD, List.cons_append,
    List.getElem?_cons_zero, List.getElem?_cons_succ, Option.getD_some, UInt8.toNat_ofNat',
    Nat.zero_add]
  omega

/-- The byte queue with `mergeBelow` 0, as the stream uses it: the slices still queued, the
front one without the bytes already taken from it. A slice that is used up is dropped, so
none is empty. -/
structure Pieces where
  list : List Bytes
  nonempty : ∀ p ∈ list, p ≠ []

namespace Pieces

def empty : Pieces := ⟨[], by simp⟩

/-- What the queue holds, as one byte string. -/
def flat (q : Pieces) : Bytes := q.list.flatten

def bytes (q : Pieces) : Nat := q.flat.length

def slices (q : Pieces) : Nat := q.list.length

def push (q : Pieces) (piece : Bytes) : Pieces :=
  if h : piece = [] then q
  else ⟨q.list ++ [piece], by
    intro p hp
    rcases List.mem_append.mp hp with hp | hp
    · exact q.nonempty p hp
    · rw [List.mem_singleton.mp hp]; exact h⟩

/-- `n` bytes off the front of a list of slices, and the slices left. -/
def consume : Nat → List Bytes → Bytes × List Bytes
  | 0, ps => ([], ps)
  | _ + 1, [] => ([], [])
  | n + 1, p :: ps =>
    if p.length ≤ n + 1 then
      (p ++ (consume (n + 1 - p.length) ps).1, (consume (n + 1 - p.length) ps).2)
    else (p.take (n + 1), p.drop (n + 1) :: ps)

theorem consume_spec (n : Nat) (ps : List Bytes) :
    (consume n ps).1 = ps.flatten.take n ∧ (consume n ps).2.flatten = ps.flatten.drop n := by
  induction ps generalizing n with
  | nil => cases n <;> simp [consume]
  | cons p ps ih =>
    cases n with
    | zero => simp [consume]
    | succ n =>
      by_cases h : p.length ≤ n + 1
      · obtain ⟨h₁, h₂⟩ := ih (n + 1 - p.length)
        simp only [consume, h, if_true, List.flatten_cons, h₁, h₂]
        constructor
        · rw [List.take_append, List.take_of_length_le h]
        · rw [List.drop_append, List.drop_of_length_le h, List.nil_append]
      · have hlt : n + 1 - p.length = 0 := by omega
        simp only [consume, h, if_false, List.flatten_cons]
        constructor
        · rw [List.take_append, hlt, List.take_zero, List.append_nil]
        · rw [List.drop_append, hlt, List.drop_zero]

theorem consume_nonempty (n : Nat) (ps : List Bytes) (hp : ∀ p ∈ ps, p ≠ []) :
    ∀ p ∈ (consume n ps).2, p ≠ [] := by
  induction ps generalizing n with
  | nil => cases n <;> simp [consume]
  | cons p ps ih =>
    cases n with
    | zero => simpa [consume] using hp
    | succ n =>
      have hps : ∀ q ∈ ps, q ≠ [] := fun q hq => hp q (List.mem_cons_of_mem p hq)
      by_cases h : p.length ≤ n + 1
      · simp only [consume, h, if_true]
        exact ih (n + 1 - p.length) hps
      · simp only [consume, h, if_false, List.mem_cons]
        rintro q (rfl | hq)
        · intro hnil
          have hl := congrArg List.length hnil
          simp only [List.length_drop, List.length_nil] at hl
          omega
        · exact hps q hq

/-- The next `n` bytes, of the `bytes` there are, and the queue without them. -/
def take (q : Pieces) (n : Nat) : Bytes × Pieces :=
  ((consume n q.list).1, ⟨(consume n q.list).2, consume_nonempty n q.list q.nonempty⟩)

@[simp] theorem flat_empty : empty.flat = [] := rfl

@[simp] theorem bytes_empty : empty.bytes = 0 := rfl

@[simp] theorem flat_push (q : Pieces) (piece : Bytes) : (q.push piece).flat = q.flat ++ piece := by
  unfold push
  split
  · rename_i h; simp [h]
  · simp [flat]

@[simp] theorem bytes_push (q : Pieces) (piece : Bytes) :
    (q.push piece).bytes = q.bytes + piece.length := by simp [bytes]

@[simp] theorem take_fst (q : Pieces) (n : Nat) : (q.take n).1 = q.flat.take n :=
  (consume_spec n q.list).1

@[simp] theorem flat_take (q : Pieces) (n : Nat) : (q.take n).2.flat = q.flat.drop n :=
  (consume_spec n q.list).2

@[simp] theorem bytes_take (q : Pieces) (n : Nat) : (q.take n).2.bytes = q.bytes - n := by
  simp [bytes]

end Pieces

end SeedTransport
