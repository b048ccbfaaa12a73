import SeedTransport.Ws.Module

set_option autoImplicit false

namespace SeedTransport.Ws

/-! The masking of RFC 6455: the passes of `maskRun` are one XOR byte by byte, and `opMask` XORs the
payload of a frame under the key in its header. -/

/-- The payload under its key: octet `i` is XORed with octet `i mod 4` of the key. -/
def masked (key bytes : Bytes) : Bytes := bytes.mapIdx fun i b => b ^^^ key.getD (i % 4) 0

@[simp] theorem masked_length (key bytes : Bytes) : (masked key bytes).length = bytes.length := by
  simp [masked]

/-- Masking twice restores the payload. -/
theorem masked_masked (key bytes : Bytes) : masked key (masked key bytes) = bytes := by
  refine List.ext_getElem (by simp) fun i _ _ => ?_
  simp [masked]

/-- Memory with the first `n` bytes from `ptr` on masked. -/
def maskedTo (m : Memory) (ptr : Nat) (key : Bytes) (n : Nat) : Memory :=
  fun x => if ptr ≤ x ∧ x < ptr + n then m x ^^^ key.getD ((x - ptr) % 4) 0 else m x

section Passes

variable {m : Memory} {ptr : Nat} {m0 m1 m2 m3 : UInt8}

theorem maskedTo_zero (key : Bytes) : maskedTo m ptr key 0 = m :=
  funext fun x => if_neg (by omega)

theorem maskedTo_eq_write (key : Bytes) (n : Nat) :
    maskedTo m ptr key n = m.write ptr (masked key (m.read ptr n)) := by
  funext x
  rcases Nat.lt_or_ge x ptr with h | h
  · rw [Memory.write_out (Or.inl h)]
    exact if_neg (by omega)
  · obtain ⟨i, rfl⟩ := Nat.exists_eq_add_of_le h
    rcases Nat.lt_or_ge i n with hi | hi
    · rw [Memory.write_in (by simpa using hi)]
      unfold maskedTo masked
      rw [if_pos (by omega), List.getElem_mapIdx, Memory.read_getElem, Nat.add_sub_cancel_left]
    · rw [Memory.write_out (Or.inr (by simpa using hi))]
      exact if_neg (by omega)

variable (m0 m1 m2 m3) in
/-- The key as a little-endian word. -/
theorem word_sum : m0.toNat ||| (m1.toNat <<< 8) ||| (m2.toNat <<< 16) ||| (m3.toNat <<< 24) =
    m0.toNat + m1.toNat * 2 ^ 8 + m2.toNat * 2 ^ 16 + m3.toNat * 2 ^ 24 := by
  have hor : ∀ k x y : Nat, x < 2 ^ k → x ||| (y <<< k) = x + y * 2 ^ k := by
    intro k x y h
    rw [Nat.shiftLeft_eq, Nat.or_comm, Nat.mul_comm, ← Nat.two_pow_add_eq_or_of_lt h, Nat.add_comm]
  have h₀ := m0.toNat_lt
  have h₁ := m1.toNat_lt
  have h₂ := m2.toNat_lt
  rw [hor 8 _ _ (by omega), hor 16 _ _ (by omega), hor 24 _ _ (by omega)]

/-- The upper half of a doubled word repeats the lower. -/
theorem double_octet {w j : Nat} (hw : w < 2 ^ 32) (hj : j < 8) :
    (w + w * 2 ^ 32) / 256 ^ j % 2 ^ 8 = w / 256 ^ (j % 4) % 2 ^ 8 := by
  rcases Nat.lt_or_ge j 4 with h | h
  · have hpow : (2 : Nat) ^ 32 = 256 ^ j * (256 * 256 ^ (3 - j)) := by interval_cases j <;> rfl
    rw [Nat.mod_eq_of_lt h, hpow, Nat.mul_left_comm, Nat.add_mul_div_left _ _ (by positivity), Nat.mul_left_comm]
    omega
  · have hpow : (256 : Nat) ^ j = 2 ^ 32 * 256 ^ (j % 4) := by interval_cases j <;> rfl
    rw [hpow, ← Nat.div_div_eq_div_mul, Nat.add_mul_div_right _ _ (by omega), Nat.div_eq_of_lt hw, Nat.zero_add]

/-- An octet of the word, and of the doubled word. -/
theorem word_octet {w : Nat} (hw : w = m0.toNat + m1.toNat * 2 ^ 8 + m2.toNat * 2 ^ 16 + m3.toNat * 2 ^ 24)
    (j : Nat) : (j < 4 → UInt8.ofNat (w / 256 ^ j) = [m0, m1, m2, m3].getD j 0) ∧
    (j < 8 → UInt8.ofNat ((w ||| (w <<< 32)) / 256 ^ j) = [m0, m1, m2, m3].getD (j % 4) 0) := by
  have h₀ := m0.toNat_lt
  have h₁ := m1.toNat_lt
  have h₂ := m2.toNat_lt
  have h₃ := m3.toNat_lt
  have hdouble : w ||| (w <<< 32) = w + w * 2 ^ 32 := by
    rw [Nat.shiftLeft_eq, Nat.or_comm, Nat.mul_comm, ← Nat.two_pow_add_eq_or_of_lt (by omega), Nat.add_comm]
  rw [hdouble]
  refine ⟨fun hj => UInt8.toNat_inj.mp ?_, fun hj => UInt8.toNat_inj.mp ?_⟩
  · rw [UInt8.toNat_ofNat']
    interval_cases j <;> simp only [List.getD_cons_zero, List.getD_cons_succ] <;> omega
  · rw [UInt8.toNat_ofNat', double_octet (by omega) hj]
    have hmod : j % 4 < 4 := Nat.mod_lt _ (by omega)
    generalize j % 4 = k at hmod
    interval_cases k <;> simp only [List.getD_cons_zero, List.getD_cons_succ] <;> omega

/-- A pass XORs a word of `k` octets behind what is masked, at a multiple of four. -/
theorem pass_word {d i k : Nat} (hi : i % 4 = 0)
    (hd : ∀ j, j < k → UInt8.ofNat (d / 256 ^ j) = [m0, m1, m2, m3].getD (j % 4) 0) :
    (maskedTo m ptr [m0, m1, m2, m3] i).storeWord (ptr + i) k
      ((maskedTo m ptr [m0, m1, m2, m3] i).word (ptr + i) k ^^^ d) =
      maskedTo m ptr [m0, m1, m2, m3] (i + k) := by
  funext x
  by_cases hin : ptr + i ≤ x ∧ x < ptr + i + k
  · rw [Memory.storeWord_xor d hin, hd _ (by omega)]
    unfold maskedTo
    rw [if_neg (by omega), if_pos (by omega), show (x - (ptr + i)) % 4 = (x - ptr) % 4 by omega]
  · rw [Memory.storeWord_out _ (by omega)]
    unfold maskedTo
    by_cases hlow : ptr ≤ x ∧ x < ptr + i
    · rw [if_pos hlow, if_pos (by omega)]
    · rw [if_neg hlow, if_neg (by omega)]

/-- The three passes are one XOR byte by byte, for every length and start. -/
theorem maskRun_eq (len : Nat) : maskRun m ptr len m0 m1 m2 m3 = maskedTo m ptr [m0, m1, m2, m3] len := by
  have hsum := word_sum m0 m1 m2 m3
  have heights : ∀ n, (List.range' 0 n 8).foldl (fun m i => m.storeWord (ptr + i) 8 (m.word (ptr + i) 8 ^^^
      ((m0.toNat ||| (m1.toNat <<< 8) ||| (m2.toNat <<< 16) ||| (m3.toNat <<< 24)) |||
        ((m0.toNat ||| (m1.toNat <<< 8) ||| (m2.toNat <<< 16) ||| (m3.toNat <<< 24)) <<< 32)))) m =
      maskedTo m ptr [m0, m1, m2, m3] (8 * n) := by
    intro n
    induction n with
    | zero => rw [Nat.mul_zero, maskedTo_zero]; rfl
    | succ n ih =>
      rw [List.range'_concat, List.foldl_append, ih, Nat.zero_add]
      exact pass_word (by omega) fun j hj => (word_octet hsum j).2 hj
  have htail : ∀ i n, (List.range' i n).foldl (fun m i =>
      m.store (ptr + i) (m (ptr + i) ^^^ (if i % 4 = 0 then m0 else if i % 4 = 1 then m1
        else if i % 4 = 2 then m2 else m3))) (maskedTo m ptr [m0, m1, m2, m3] i) =
      maskedTo m ptr [m0, m1, m2, m3] (i + n) := by
    intro i n
    induction n with
    | zero => rfl
    | succ n ih =>
      rw [List.range'_concat, List.foldl_append, ih, Nat.one_mul]
      simp only [List.foldl_cons, List.foldl_nil]
      funext x
      by_cases hx : x = ptr + (i + n)
      · subst hx
        rw [Memory.store_same]
        unfold maskedTo
        rw [if_neg (show ¬ (ptr ≤ ptr + (i + n) ∧ ptr + (i + n) < ptr + (i + n)) by omega),
          if_pos (show ptr ≤ ptr + (i + n) ∧ ptr + (i + n) < ptr + (i + (n + 1)) by omega), Nat.add_sub_cancel_left]
        congr 1
        have hmod : (i + n) % 4 < 4 := Nat.mod_lt _ (by omega)
        generalize (i + n) % 4 = k at hmod
        interval_cases k <;> rfl
      · rw [Memory.store_other _ hx]
        unfold maskedTo
        by_cases hlow : ptr ≤ x ∧ x < ptr + (i + n)
        · rw [if_pos hlow, if_pos (show ptr ≤ x ∧ x < ptr + (i + (n + 1)) by omega)]
        · rw [if_neg hlow, if_neg (show ¬ (ptr ≤ x ∧ x < ptr + (i + (n + 1))) by omega)]
  unfold maskRun
  dsimp only
  rw [heights, Nat.mul_comm 8]
  by_cases hfour : len / 8 * 8 + 4 ≤ len
  · rw [if_pos hfour, if_pos hfour, pass_word (by omega) fun j hj => by
      rw [Nat.mod_eq_of_lt hj]
      exact (word_octet hsum j).1 hj]
    rw [htail]
    congr 1
    omega
  · rw [if_neg hfour, if_neg hfour, htail]
    congr 1
    omega

end Passes

/-- The header of a masked frame, key included, by its second octet. -/
def maskedHead (frame : Bytes) : Nat :=
  (if byteAt frame 1 % 128 = 127 then 10 else if byteAt frame 1 % 128 = 126 then 4 else 2) + 4

/-- A whole masked frame with its payload under the key it carries. -/
def masking (frame : Bytes) : Bytes :=
  frame.take (maskedHead frame) ++
    masked ((frame.drop (maskedHead frame - 4)).take 4) (frame.drop (maskedHead frame))

/-- The memory after a request has been masked in place. -/
theorem opMask_eq (b : Buffers) (m : Memory) {frame : Bytes} (h : maskedHead frame ≤ frame.length) :
    ∃ m', opMask b (m.write b.scratch (OP_MASK :: frame)) (frame.length + 1) = (m', frame.length) ∧
      m'.read b.scratch frame.length = masking frame := by
  have htwo : 2 ≤ frame.length := by
    unfold maskedHead at h
    omega
  have hlen7 : ((m.write b.scratch (OP_MASK :: frame)) (b.scratch + 2)).toNat = byteAt frame 1 := by
    rw [Memory.write_in (by simp; omega), byteAt, List.getD_eq_getElem _ _ (show 1 < frame.length by omega)]
    rfl
  have hmoved : (m.write b.scratch (OP_MASK :: frame)).copy b.scratch (b.scratch + 1) frame.length =
      (m.write b.scratch (OP_MASK :: frame)).write b.scratch frame := by
    rw [Memory.copy_eq_write, Memory.read_write_part (by simp; omega)]
    simp
  unfold opMask
  dsimp only
  rw [Nat.add_sub_cancel, if_neg (by omega), hlen7, ← maskedHead, if_neg (by omega), hmoved]
  generalize m.write b.scratch (OP_MASK :: frame) = m₁
  have hkey : [(m₁.write b.scratch frame) (b.scratch + maskedHead frame - 4),
      (m₁.write b.scratch frame) (b.scratch + maskedHead frame - 4 + 1),
      (m₁.write b.scratch frame) (b.scratch + maskedHead frame - 4 + 2),
      (m₁.write b.scratch frame) (b.scratch + maskedHead frame - 4 + 3)] =
      (frame.drop (maskedHead frame - 4)).take 4 := by
    have hfour : 4 ≤ maskedHead frame := by
      unfold maskedHead
      omega
    rw [← Memory.read_write_part (m := m₁) (a := b.scratch) (by omega), ← Nat.add_sub_assoc hfour]
    rfl
  refine ⟨_, rfl, ?_⟩
  rw [maskRun_eq, maskedTo_eq_write, hkey, Memory.read_write_part (by omega),
    List.take_of_length_le (show (frame.drop (maskedHead frame)).length ≤ frame.length - maskedHead frame by simp)]
  have hpatch := Memory.write_patch (m := m₁) (a := b.scratch) (frame.take (maskedHead frame)) []
    (masked_length ((frame.drop (maskedHead frame - 4)).take 4) (frame.drop (maskedHead frame)))
  rw [List.append_nil, List.append_nil, List.take_append_drop, List.length_take_of_le h] at hpatch
  rw [hpatch]
  have hlen : frame.length = (masking frame).length := by
    simp [masking]
    omega
  rw [hlen]
  exact Memory.read_write _

/-- The module masks the whole of a frame that has room in the scratch behind the operation's byte. -/
theorem call_mask (b : Buffers) (m : Memory) {frame : Bytes} (h : maskedHead frame ≤ frame.length)
    (hroom : frame.length + 1 ≤ SCRATCH_SIZE) : call b m (OP_MASK :: frame) = some (masking frame) := by
  obtain ⟨m', hop, hread⟩ := opMask_eq b m h
  have hsel : (m.write b.scratch (OP_MASK :: frame)) b.scratch = OP_MASK :=
    Memory.write_in (i := 0) (by simp)
  have hhandle : handle b (m.write b.scratch (OP_MASK :: frame)) (OP_MASK :: frame).length =
      (m', frame.length) := by
    unfold handle
    dsimp only
    rw [if_neg (by simp), hsel, if_pos rfl, List.length_cons, hop]
  unfold call
  dsimp only
  rw [if_neg (by simpa using hroom), hhandle, if_pos (by omega), hread]

end SeedTransport.Ws
