import Mathlib

set_option autoImplicit false

/-! A linear memory of bytes: what stores, fills and moves change, and what they leave. -/

/-- A memory, by address. -/
abbrev Memory : Type := Nat → UInt8

namespace Memory

variable (m : Memory)

def store (a : Nat) (v : UInt8) : Memory := fun x => if x = a then v else m x

def fill (a : Nat) (v : UInt8) (n : Nat) : Memory := fun x => if a ≤ x ∧ x < a + n then v else m x

/-- The bytes move as if through a buffer, so the two places may overlap. -/
def copy (dst src n : Nat) : Memory :=
  fun x => if dst ≤ x ∧ x < dst + n then m (src + (x - dst)) else m x

/-- The `n` bytes from `a` on as one number, the first byte the lowest. -/
def word (a : Nat) : Nat → Nat
  | 0 => 0
  | n + 1 => word a n + (m (a + n)).toNat * 256 ^ n

def storeWord (a n v : Nat) : Memory :=
  fun x => if a ≤ x ∧ x < a + n then UInt8.ofNat (v / 256 ^ (x - a)) else m x

def read (a n : Nat) : List UInt8 := (List.range n).map fun i => m (a + i)

/-- Bytes stored one after another. -/
def write (a : Nat) (bytes : List UInt8) : Memory :=
  fun x => if a ≤ x ∧ x < a + bytes.length then bytes.getD (x - a) 0 else m x

variable {m} {a x n : Nat}

@[simp] theorem store_same (v : UInt8) : m.store a v a = v := if_pos rfl

theorem store_other (v : UInt8) (h : x ≠ a) : m.store a v x = m x := if_neg h

theorem storeWord_in (v : Nat) (h : a ≤ x ∧ x < a + n) :
    m.storeWord a n v x = UInt8.ofNat (v / 256 ^ (x - a)) := if_pos h

theorem storeWord_out (v : Nat) (h : x < a ∨ a + n ≤ x) : m.storeWord a n v x = m x :=
  if_neg (by omega)

@[simp] theorem read_length : (m.read a n).length = n := by simp [read]

theorem read_getElem {i : Nat} (h : i < (m.read a n).length) : (m.read a n)[i] = m (a + i) := by
  simp [read]

theorem read_congr {m' : Memory} {a' : Nat} (h : ∀ i, i < n → m (a + i) = m' (a' + i)) :
    m.read a n = m'.read a' n := by
  refine List.map_congr_left fun i hi => h i (List.mem_range.mp hi)

theorem read_eq_iff {bytes : List UInt8} :
    m.read a bytes.length = bytes ↔ ∀ i (h : i < bytes.length), m (a + i) = bytes[i] := by
  constructor
  · intro h i hi
    rw [← read_getElem (m := m) (a := a) (n := bytes.length) (by simpa using hi)]
    simp only [h]
  · intro h
    refine List.ext_getElem (by simp) fun i h₁ h₂ => ?_
    rw [read_getElem h₁]
    exact h i h₂

theorem read_append (k : Nat) : m.read a (n + k) = m.read a n ++ m.read (a + n) k := by
  simp only [read, List.range_add, List.map_append, List.map_map]
  refine congrArg _ (List.map_congr_left fun i _ => ?_)
  simp [Nat.add_assoc]

theorem write_in {bytes : List UInt8} {i : Nat} (h : i < bytes.length) :
    m.write a bytes (a + i) = bytes[i] := by
  unfold write
  rw [if_pos (by omega)]
  simp [h]

theorem write_out {bytes : List UInt8} (h : x < a ∨ a + bytes.length ≤ x) : m.write a bytes x = m x :=
  if_neg (by omega)

theorem read_write (bytes : List UInt8) : (m.write a bytes).read a bytes.length = bytes :=
  read_eq_iff.mpr fun _ hi => write_in hi

theorem read_write_part {bytes : List UInt8} {i : Nat} (h : i + n ≤ bytes.length) :
    (m.write a bytes).read (a + i) n = (bytes.drop i).take n := by
  refine List.ext_getElem (by simp; omega) fun j h₁ _ => ?_
  rw [read_length] at h₁
  rw [read_getElem, Nat.add_assoc, write_in (by omega), List.getElem_take, List.getElem_drop]

theorem store_eq_write (v : UInt8) : m.store a v = m.write a [v] := by
  funext x
  unfold store write
  by_cases h : x = a
  · simp [h]
  · rw [if_neg h, if_neg (by simp only [List.length_singleton]; omega)]

theorem write_nil : m.write a [] = m := funext fun x => write_out (by simp; omega)

theorem write_write (xs ys : List UInt8) :
    (m.write a xs).write (a + xs.length) ys = m.write a (xs ++ ys) := by
  funext x
  rcases Nat.lt_or_ge x a with h | h
  · rw [write_out (Or.inl (by omega)), write_out (Or.inl h), write_out (Or.inl h)]
  · obtain ⟨i, rfl⟩ := Nat.exists_eq_add_of_le h
    rcases Nat.lt_or_ge i xs.length with hx | hx
    · rw [write_out (Or.inl (by omega)), write_in hx, write_in (by simp; omega),
        List.getElem_append_left hx]
    · obtain ⟨j, rfl⟩ := Nat.exists_eq_add_of_le hx
      rcases Nat.lt_or_ge j ys.length with hy | hy
      · rw [← Nat.add_assoc, write_in hy, Nat.add_assoc, write_in (by simp; omega),
          List.getElem_append_right (by omega)]
        simp
      · rw [write_out (Or.inr (by omega)), write_out (Or.inr (by omega)),
          write_out (Or.inr (by simp; omega))]

/-- What is stored over the head of a string. -/
theorem write_over {xs ys : List UInt8} (h : ys.length ≤ xs.length) :
    (m.write a xs).write a ys = m.write a (ys ++ xs.drop ys.length) := by
  funext x
  rcases Nat.lt_or_ge x a with hx | hx
  · rw [write_out (Or.inl hx), write_out (Or.inl hx), write_out (Or.inl hx)]
  · obtain ⟨i, rfl⟩ := Nat.exists_eq_add_of_le hx
    rcases Nat.lt_or_ge i ys.length with hy | hy
    · rw [write_in hy, write_in (by simp; omega), List.getElem_append_left hy]
    · rw [write_out (Or.inr (by omega))]
      rcases Nat.lt_or_ge i xs.length with hxs | hxs
      · rw [write_in hxs, write_in (by simp; omega), List.getElem_append_right hy]
        simp [show ys.length + (i - ys.length) = i by omega]
      · rw [write_out (Or.inr (by omega)), write_out (Or.inr (by simp; omega))]

/-- A part of a string is replaced by one as long. -/
theorem write_patch (xs zs : List UInt8) {ys ys' : List UInt8} (h : ys'.length = ys.length) :
    (m.write a (xs ++ (ys ++ zs))).write (a + xs.length) ys' = m.write a (xs ++ (ys' ++ zs)) := by
  rw [← write_write, write_over (by simp [h]), write_write, h, List.drop_left]

theorem fill_eq_write (v : UInt8) : m.fill a v n = m.write a (List.replicate n v) := by
  funext x
  unfold fill write
  rw [List.length_replicate]
  split
  · rw [List.getD_eq_getElem _ _ (by simp; omega), List.getElem_replicate]
  · rfl

theorem copy_eq_write (dst src : Nat) : m.copy dst src n = m.write dst (m.read src n) := by
  funext x
  unfold copy write
  rw [read_length]
  split
  · rw [List.getD_eq_getElem _ _ (by simp; omega), read_getElem]
  · rfl

/-- A loop that stores a string byte by byte. -/
theorem foldl_store (bytes : List UInt8) (n : Nat) (h : n ≤ bytes.length) :
    (List.range n).foldl (fun m i => m.store (a + i) (bytes.getD i 0)) m = m.write a (bytes.take n) := by
  induction n with
  | zero => simp [write_nil]
  | succ n ih =>
    have hlen : (bytes.take n).length = n := by simp; omega
    rw [List.range_succ, List.foldl_append, ih (by omega)]
    simp only [List.foldl_cons, List.foldl_nil]
    have hw := write_write (m := m) (a := a) (bytes.take n) [bytes.getD n 0]
    rw [hlen] at hw
    rw [store_eq_write, hw, List.take_add_one]
    simp [show n < bytes.length from h]

theorem word_lt : m.word a n < 256 ^ n := by
  induction n with
  | zero => exact Nat.one_pos
  | succ n ih =>
    have hb := (m (a + n)).toNat_lt
    have hmul : (m (a + n)).toNat * 256 ^ n ≤ 255 * 256 ^ n := Nat.mul_le_mul_right _ (by omega)
    unfold word
    rw [Nat.pow_succ]
    omega

theorem word_congr {m' : Memory} {a' : Nat} (h : ∀ i, i < n → m (a + i) = m' (a' + i)) :
    m.word a n = m'.word a' n := by
  induction n with
  | zero => rfl
  | succ n ih =>
    unfold word
    rw [ih fun i hi => h i (by omega), h n (by omega)]

/-- A byte of the word. -/
theorem word_byte {i : Nat} (h : i < n) : m.word a n / 256 ^ i % 256 = (m (a + i)).toNat := by
  induction n with
  | zero => omega
  | succ n ih =>
    have hpos : 0 < 256 ^ i := Nat.pow_pos (by omega)
    unfold word
    rcases Nat.lt_or_ge i n with hlt | hge
    · obtain ⟨k, rfl⟩ : ∃ k, n = i + (k + 1) := ⟨n - i - 1, by omega⟩
      rw [show (m (a + (i + (k + 1)))).toNat * 256 ^ (i + (k + 1)) =
        256 ^ i * (256 * ((m (a + (i + (k + 1)))).toNat * 256 ^ k)) by ring]
      rw [Nat.add_mul_div_left _ _ hpos, Nat.add_mul_mod_self_left]
      exact ih hlt
    · obtain rfl : i = n := by omega
      have hb := (m (a + i)).toNat_lt
      rw [Nat.add_mul_div_right _ _ hpos, Nat.div_eq_of_lt word_lt]
      omega

theorem word_storeWord (v : Nat) : (m.storeWord a n v).word a n = v % 256 ^ n := by
  have hlow : ∀ k, k ≤ n → (m.storeWord a n v).word a k = v % 256 ^ k := by
    intro k hk
    induction k with
    | zero => simp [word, Nat.mod_one]
    | succ k ih =>
      unfold word
      rw [ih (by omega), storeWord_in v (by omega), Nat.add_sub_cancel_left, UInt8.toNat_ofNat']
      have hsplit : v % 256 ^ (k + 1) = v % 256 ^ k + 256 ^ k * (v / 256 ^ k % 256) := by
        rw [Nat.pow_succ, Nat.mod_mul]
      rw [hsplit, Nat.mul_comm (256 ^ k)]
  exact hlow n (Nat.le_refl n)

theorem word_storeWord_apart {b k : Nat} (v : Nat) (h : b + k ≤ a ∨ a + n ≤ b) :
    (m.storeWord a n v).word b k = m.word b k :=
  word_congr fun i hi => storeWord_out v (by omega)

/-- A word XORed in place is its bytes XORed. -/
theorem storeWord_xor (d : Nat) (h : a ≤ x ∧ x < a + n) :
    m.storeWord a n (m.word a n ^^^ d) x = m x ^^^ UInt8.ofNat (d / 256 ^ (x - a)) := by
  obtain ⟨i, rfl⟩ := Nat.exists_eq_add_of_le h.1
  have hbyte := word_byte (m := m) (a := a) (n := n) (i := i) (by omega)
  have hpow : 256 ^ i = 2 ^ (8 * i) := by rw [Nat.pow_mul]
  have hlow := (m (a + i)).toNat_lt
  rw [storeWord_in _ h, Nat.add_sub_cancel_left]
  refine UInt8.toNat_inj.mp ?_
  rw [UInt8.toNat_ofNat', UInt8.toNat_xor, UInt8.toNat_ofNat', hpow, Nat.xor_div_two_pow,
    Nat.xor_mod_two_pow, ← hpow, ← hbyte]

end Memory
