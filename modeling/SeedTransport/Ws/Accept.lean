import SeedTransport.Ws.Module

set_option autoImplicit false

namespace SeedTransport.Ws

/-! What `base64` and `sha1` compute, and the accept value of an opening handshake. -/

theorem load_toNat (m : Memory) (p : Nat) : (load m p).toNat = (m p).toNat := by
  have h := (m p).toNat_lt
  simp only [load, BitVec.toNat_setWidth, UInt8.toNat_toBitVec]
  omega

theorem lowByte_eq (v : BitVec 32) : lowByte v = UInt8.ofNat v.toNat := by
  refine UInt8.toNat_inj.mp ?_
  simp [lowByte, UInt8.toNat_ofNat']

/-- `storeBE` stores a word, the highest byte first. -/
theorem storeBE_eq (m : Memory) (p : Nat) (v : BitVec 32) :
    storeBE m p v = m.write p (Sha1.bigEndian 4 v.toNat) := by
  have hbyte : ∀ k, lowByte ((v >>> k) &&& 255) = UInt8.ofNat (v.toNat / 2 ^ k) := by
    intro k
    refine UInt8.toNat_inj.mp ?_
    have hand : (v >>> k).toNat &&& 255 = (v >>> k).toNat % 2 ^ 8 := Nat.and_two_pow_sub_one_eq_mod _ 8
    rw [lowByte_eq, UInt8.toNat_ofNat', UInt8.toNat_ofNat', BitVec.toNat_and,
      show (255 : BitVec 32).toNat = 255 from rfl, hand, BitVec.toNat_ushiftRight,
      Nat.shiftRight_eq_div_pow, Nat.mod_mod]
  have hlow : lowByte (v &&& 255) = UInt8.ofNat (v.toNat / 256 ^ 0) := by
    have h := hbyte 0
    simpa using h
  have hlist : Sha1.bigEndian 4 v.toNat = (([lowByte ((v >>> 24) &&& 255)] ++
      [lowByte ((v >>> 16) &&& 255)]) ++ [lowByte ((v >>> 8) &&& 255)]) ++ [lowByte (v &&& 255)] := by
    rw [hbyte 24, hbyte 16, hbyte 8, hlow]
    rfl
  rw [hlist, ← Memory.write_write, ← Memory.write_write, ← Memory.write_write]
  simp only [storeBE, Memory.store_eq_write]
  rfl

theorem b64char_eq (idx : BitVec 32) (h : idx.toNat < 64) : b64char idx = Base64.char idx.toNat := by
  have hall : ∀ i : Fin 64, B64.getD i.val 0 = Base64.char i.val := by decide +kernel
  exact hall ⟨idx.toNat, h⟩

theorem sextet₀ {x : BitVec 32} (hx : x.toNat < 256) : b64char (x >>> 2) = Base64.char (x.toNat / 4) := by
  have h : (x >>> 2).toNat = x.toNat / 4 := by
    rw [BitVec.toNat_ushiftRight, Nat.shiftRight_eq_div_pow]
  rw [b64char_eq _ (by omega), h]

theorem sextet₁ {y : BitVec 32} (x : BitVec 32) (hy : y.toNat < 256) :
    b64char (((x &&& 3) <<< 4) ||| (y >>> 4)) = Base64.char (x.toNat % 4 * 16 + y.toNat / 16) := by
  have hand : x.toNat &&& 3 = x.toNat % 2 ^ 2 := Nat.and_two_pow_sub_one_eq_mod _ 2
  have h : (((x &&& 3) <<< 4) ||| (y >>> 4)).toNat = x.toNat % 4 * 16 + y.toNat / 16 := by
    rw [BitVec.toNat_or, BitVec.toNat_shiftLeft, BitVec.toNat_and, BitVec.toNat_ushiftRight,
      Nat.shiftRight_eq_div_pow, show (3 : BitVec 32).toNat = 3 from rfl, hand, Nat.shiftLeft_eq,
      Nat.mod_eq_of_lt (by omega), Nat.mul_comm, ← Nat.two_pow_add_eq_or_of_lt (by omega)]
    omega
  rw [b64char_eq _ (by omega), h]

theorem sextet₂ {z : BitVec 32} (y : BitVec 32) (hz : z.toNat < 256) :
    b64char (((y &&& 15) <<< 2) ||| (z >>> 6)) = Base64.char (y.toNat % 16 * 4 + z.toNat / 64) := by
  have hand : y.toNat &&& 15 = y.toNat % 2 ^ 4 := Nat.and_two_pow_sub_one_eq_mod _ 4
  have h : (((y &&& 15) <<< 2) ||| (z >>> 6)).toNat = y.toNat % 16 * 4 + z.toNat / 64 := by
    rw [BitVec.toNat_or, BitVec.toNat_shiftLeft, BitVec.toNat_and, BitVec.toNat_ushiftRight,
      Nat.shiftRight_eq_div_pow, show (15 : BitVec 32).toNat = 15 from rfl, hand, Nat.shiftLeft_eq,
      Nat.mod_eq_of_lt (by omega), Nat.mul_comm, ← Nat.two_pow_add_eq_or_of_lt (by omega)]
    omega
  rw [b64char_eq _ (by omega), h]

theorem sextet₃ (z : BitVec 32) : b64char (z &&& 63) = Base64.char (z.toNat % 64) := by
  have hand : z.toNat &&& 63 = z.toNat % 2 ^ 6 := Nat.and_two_pow_sub_one_eq_mod _ 6
  have h : (z &&& 63).toNat = z.toNat % 64 := by
    rw [BitVec.toNat_and, show (63 : BitVec 32).toNat = 63 from rfl, hand]
    rfl
  rw [b64char_eq _ (by omega), h]

section Base64

variable {inPtr inLen outPtr : Nat}

/-- The bytes a turn of the loop takes in. -/
def chunk (m : Memory) (inPtr inLen i : Nat) : List UInt8 := m.read (inPtr + i) (min 3 (inLen - i))

/-- A turn stores the characters of the bytes it takes in. -/
theorem base64Group_eq (m : Memory) (o : Nat) {i : Nat} (hi : i < inLen) :
    base64Group inPtr inLen outPtr (m, o) i =
      (m.write (outPtr + o) (Base64.encode (chunk m inPtr inLen i)), o + 4) := by
  have hstores : ∀ (p : Nat) (c₀ c₁ c₂ c₃ : UInt8),
      (((m.store p c₀).store (p + 1) c₁).store (p + 2) c₂).store (p + 3) c₃ =
        m.write p [c₀, c₁, c₂, c₃] := by
    intro p c₀ c₁ c₂ c₃
    simp only [Memory.store_eq_write]
    rw [show p + 1 = p + [c₀].length from rfl, Memory.write_write,
      show p + 2 = p + ([c₀] ++ [c₁]).length from rfl, Memory.write_write,
      show p + 3 = p + ([c₀] ++ [c₁] ++ [c₂]).length from rfl, Memory.write_write]
    rfl
  have hb : ∀ p, (load m p).toNat < 256 := fun p => by
    rw [load_toNat]
    exact (m p).toNat_lt
  have hzero : (0 : BitVec 32).toNat < 256 := by decide
  unfold base64Group chunk
  simp only [← Nat.add_assoc, hstores]
  refine Prod.ext (congrArg (m.write (outPtr + o)) ?_) rfl
  have hx := (m (inPtr + i)).toNat_lt
  have hy := (m (inPtr + i + 1)).toNat_lt
  have hz := (m (inPtr + i + 2)).toNat_lt
  obtain h | h | h : inLen - i = 1 ∨ inLen - i = 2 ∨ 3 ≤ inLen - i := by omega
  · have h1 : decide (i + 1 < inLen) = false := by simp; omega
    have h2 : decide (i + 2 < inLen) = false := by simp; omega
    rw [h, h1, h2, show m.read (inPtr + i) (min 3 1) = [m (inPtr + i)] from rfl]
    simp only [Bool.false_eq_true, if_false]
    rw [sextet₀ (hb _), sextet₁ _ hzero, load_toNat, show (0 : BitVec 32).toNat = 0 from rfl]
    simp only [Base64.encode, List.cons.injEq, and_true]
    refine ⟨congrArg _ ?_, congrArg _ ?_⟩ <;> omega
  · have h1 : decide (i + 1 < inLen) = true := by simp; omega
    have h2 : decide (i + 2 < inLen) = false := by simp; omega
    rw [h, h1, h2, show m.read (inPtr + i) (min 3 2) = [m (inPtr + i), m (inPtr + i + 1)] from rfl]
    simp only [Bool.false_eq_true, if_false, if_true]
    rw [sextet₀ (hb _), sextet₁ _ (hb _), sextet₂ _ hzero, load_toNat, load_toNat,
      show (0 : BitVec 32).toNat = 0 from rfl]
    simp only [Base64.encode, List.cons.injEq, and_true]
    refine ⟨congrArg _ ?_, congrArg _ ?_, congrArg _ ?_⟩ <;> omega
  · have h1 : decide (i + 1 < inLen) = true := by simp; omega
    have h2 : decide (i + 2 < inLen) = true := by simp; omega
    rw [h1, h2, show min 3 (inLen - i) = 3 by omega,
      show m.read (inPtr + i) 3 = [m (inPtr + i), m (inPtr + i + 1), m (inPtr + i + 2)] from rfl]
    simp only [if_true]
    rw [sextet₀ (hb _), sextet₁ _ (hb _), sextet₂ _ (hb _), sextet₃, load_toNat, load_toNat, load_toNat]
    simp only [Base64.encode, List.cons.injEq, and_true]
    refine ⟨congrArg _ ?_, congrArg _ ?_, congrArg _ ?_, congrArg _ ?_⟩ <;> omega

/-- What is encoded is the first chunk and then the rest. -/
theorem encode_chunk (m : Memory) {i : Nat} (hi : i < inLen) :
    Base64.encode (m.read (inPtr + i) (inLen - i)) =
      Base64.encode (chunk m inPtr inLen i) ++
        Base64.encode (m.read (inPtr + (i + 3)) (inLen - (i + 3))) := by
  unfold chunk
  rcases Nat.lt_or_ge (inLen - i) 3 with h | h
  · rw [show min 3 (inLen - i) = inLen - i by omega, show inLen - (i + 3) = 0 by omega]
    simp [Memory.read, Base64.encode]
  · rw [show min 3 (inLen - i) = 3 by omega, show inLen - i = 3 + (inLen - (i + 3)) by omega,
      Memory.read_append, Nat.add_assoc]
    rfl

theorem chunk_length (inPtr : Nat) (m : Memory) {i : Nat} (hi : i < inLen) :
    (Base64.encode (chunk m inPtr inLen i)).length = 4 := by
  rw [Base64.encode_length, chunk, Memory.read_length]
  omega

/-- The turns from `i` on store the encoding of the bytes from `i` on. -/
theorem base64_from (k i : Nat) (hk : k = (inLen - i + 2) / 3) (m : Memory) (o : Nat)
    (hapart : inPtr + inLen ≤ outPtr ∨ outPtr + (o + 4 * k) ≤ inPtr) :
    (List.range' i k 3).foldl (base64Group inPtr inLen outPtr) (m, o) =
      (m.write (outPtr + o) (Base64.encode (m.read (inPtr + i) (inLen - i))), o + 4 * k) := by
  induction k generalizing i m o with
  | zero =>
    rw [show inLen - i = 0 by omega]
    simp [Memory.read, Base64.encode, Memory.write_nil]
  | succ k ih =>
    have hi : i < inLen := by omega
    have hlen := chunk_length inPtr m hi
    rw [List.range'_succ, List.foldl_cons, base64Group_eq m o hi, ih (i + 3) (by omega) _ _ (by omega),
      show outPtr + (o + 4) = outPtr + o + (Base64.encode (chunk m inPtr inLen i)).length by omega,
      Memory.write_write, encode_chunk m hi]
    have hsame : (m.write (outPtr + o) (Base64.encode (chunk m inPtr inLen i))).read (inPtr + (i + 3))
        (inLen - (i + 3)) = m.read (inPtr + (i + 3)) (inLen - (i + 3)) :=
      Memory.read_congr fun j hj => Memory.write_out (by omega)
    rw [hsame]
    refine Prod.ext rfl ?_
    dsimp only
    omega

/-- `base64` stores the encoding of its input, of any length, and answers its length. -/
theorem base64_eq (m : Memory)
    (hapart : inPtr + inLen ≤ outPtr ∨ outPtr + (inLen + 2) / 3 * 4 ≤ inPtr) :
    base64 m inPtr inLen outPtr = (m.write outPtr (Base64.encode (m.read inPtr inLen)),
      (Base64.encode (m.read inPtr inLen)).length) := by
  rw [Base64.encode_length, Memory.read_length, Nat.mul_comm]
  unfold base64
  rw [base64_from ((inLen + 2) / 3) 0 rfl m 0 (by omega)]
  simp only [Nat.add_zero, Nat.sub_zero, Nat.zero_add]

end Base64

/-! ## SHA-1 -/

theorem loadWord_storeWord (m : Memory) (p : Nat) (v : BitVec 32) :
    loadWord (storeWord m p v) p = v := by
  have h := v.isLt
  refine BitVec.eq_of_toNat_eq ?_
  rw [loadWord, storeWord, Memory.word_storeWord, BitVec.toNat_ofNat]
  omega

theorem loadWord_apart {m : Memory} {p q : Nat} (v : BitVec 32) (h : q + 4 ≤ p ∨ p + 4 ≤ q) :
    loadWord (storeWord m p v) q = loadWord m q := by
  rw [loadWord, storeWord, Memory.word_storeWord_apart _ h, loadWord]

/-- The four loads of a word of the message. -/
theorem load_word (m : Memory) (b : Nat) :
    (load m b <<< 24) ||| (load m (b + 1) <<< 16) ||| (load m (b + 2) <<< 8) ||| load m (b + 3) =
      Sha1.word (m.read b 4) 0 := by
  have hb : ∀ p, (load m p).toNat = (m p).toNat ∧ (m p).toNat < 256 :=
    fun p => ⟨load_toNat m p, (m p).toNat_lt⟩
  obtain ⟨h₀, g₀⟩ := hb b
  obtain ⟨h₁, g₁⟩ := hb (b + 1)
  obtain ⟨h₂, g₂⟩ := hb (b + 2)
  obtain ⟨h₃, g₃⟩ := hb (b + 3)
  have hor : ∀ (k x y : Nat), y < 2 ^ k → 2 ^ k * x ||| y = 2 ^ k * x + y :=
    fun k x y h => (Nat.two_pow_add_eq_or_of_lt h x).symm
  refine BitVec.eq_of_toNat_eq ?_
  have hword : (Sha1.word (m.read b 4) 0).toNat =
      (((m b).toNat * 256 + (m (b + 1)).toNat) * 256 + (m (b + 2)).toNat) * 256 + (m (b + 3)).toNat := by
    simp [Sha1.word, Memory.read, List.range_succ]
    omega
  rw [hword]
  simp only [BitVec.toNat_or, BitVec.toNat_shiftLeft, h₀, h₁, h₂, h₃, Nat.shiftLeft_eq]
  rw [Nat.mod_eq_of_lt (by omega), Nat.mod_eq_of_lt (by omega), Nat.mod_eq_of_lt (by omega),
    show (m b).toNat * 2 ^ 24 = 2 ^ 24 * (m b).toNat by omega, hor 24 _ _ (by omega),
    show 2 ^ 24 * (m b).toNat + (m (b + 1)).toNat * 2 ^ 16 =
      2 ^ 16 * ((m b).toNat * 256 + (m (b + 1)).toNat) by omega, hor 16 _ _ (by omega),
    show 2 ^ 16 * ((m b).toNat * 256 + (m (b + 1)).toNat) + (m (b + 2)).toNat * 2 ^ 8 =
      2 ^ 8 * (((m b).toNat * 256 + (m (b + 1)).toNat) * 256 + (m (b + 2)).toNat) by omega,
    hor 8 _ _ (by omega)]
  omega

section Block

variable {m : Memory} {workPtr wPtr off : Nat}

/-- The first `k` words of the block go where the schedule is; the rest of memory stays. -/
theorem sha1Words_spec (hapart : workPtr + off + 64 ≤ wPtr) :
    (∀ t, t < 16 → loadWord (sha1Words workPtr wPtr off m) (wPtr + t * 4) =
      Sha1.word (m.read (workPtr + off) 64) t) ∧
    (∀ x, x < wPtr ∨ wPtr + 320 ≤ x → sha1Words workPtr wPtr off m x = m x) := by
  have hloop : ∀ k, k ≤ 16 →
      let m' := (List.range k).foldl (fun m i =>
        let b := workPtr + off + i * 4
        storeWord m (wPtr + i * 4) ((load m b <<< 24) ||| (load m (b + 1) <<< 16) |||
          (load m (b + 2) <<< 8) ||| load m (b + 3))) m
      (∀ t, t < k → loadWord m' (wPtr + t * 4) = Sha1.word (m.read (workPtr + off) 64) t) ∧
      (∀ x, x < wPtr ∨ wPtr + 320 ≤ x → m' x = m x) := by
    intro k hk
    induction k with
    | zero => exact ⟨fun t ht => absurd ht (Nat.not_lt_zero t), fun _ _ => rfl⟩
    | succ k ih =>
      obtain ⟨hword, hrest⟩ := ih (by omega)
      simp only [List.range_succ, List.foldl_append, List.foldl_cons, List.foldl_nil]
      simp only at hword hrest
      generalize (List.range k).foldl _ m = m' at hword hrest
      have hblock : Sha1.word (m'.read (workPtr + off + k * 4) 4) 0 =
          Sha1.word (m.read (workPtr + off) 64) k := by
        have hsame : m'.read (workPtr + off + k * 4) 4 =
            ((m.read (workPtr + off) 64).drop (4 * k)).take 4 := by
          refine List.ext_getElem (by simp; omega) fun i h₁ h₂ => ?_
          rw [Memory.read_length] at h₁
          rw [Memory.read_getElem, List.getElem_take, List.getElem_drop, Memory.read_getElem,
            hrest _ (by omega)]
          congr 1
          omega
        unfold Sha1.word
        rw [hsame, Nat.mul_zero, List.drop_zero, List.take_take, Nat.min_self]
      rw [load_word, hblock]
      refine ⟨fun t ht => ?_, fun x hx => ?_⟩
      · rcases Nat.lt_or_ge t k with h | h
        · rw [loadWord_apart _ (by omega)]
          exact hword t h
        · obtain rfl : t = k := by omega
          exact loadWord_storeWord _ _ _
      · rw [← hrest x hx]
        exact Memory.storeWord_out _ (by omega)
  exact hloop 16 (Nat.le_refl 16)

/-- The schedule, once the block's words stand at its head. -/
theorem sha1Schedule_spec {M : Nat → BitVec 32} (hM : ∀ t, t < 16 → loadWord m (wPtr + t * 4) = M t) :
    (∀ t, t < 80 → loadWord (sha1Schedule wPtr m) (wPtr + t * 4) = Sha1.schedule M t) ∧
    (∀ x, x < wPtr ∨ wPtr + 320 ≤ x → sha1Schedule wPtr m x = m x) := by
  have hloop : ∀ k, k ≤ 64 →
      let m' := (List.range' 16 k).foldl (fun m i =>
        let v := loadWord m (wPtr + (i - 3) * 4) ^^^ loadWord m (wPtr + (i - 8) * 4) ^^^
          loadWord m (wPtr + (i - 14) * 4) ^^^ loadWord m (wPtr + (i - 16) * 4)
        storeWord m (wPtr + i * 4) ((v <<< 1) ||| (v >>> 31))) m
      (∀ t, t < 16 + k → loadWord m' (wPtr + t * 4) = Sha1.schedule M t) ∧
      (∀ x, x < wPtr ∨ wPtr + 320 ≤ x → m' x = m x) := by
    intro k hk
    induction k with
    | zero =>
      refine ⟨fun t ht => ?_, fun _ _ => rfl⟩
      rw [Sha1.schedule_lt M ht]
      exact hM t ht
    | succ k ih =>
      obtain ⟨hword, hrest⟩ := ih (by omega)
      simp only [List.range'_concat, List.foldl_append, List.foldl_cons, List.foldl_nil, Nat.one_mul]
      simp only at hword hrest
      generalize (List.range' 16 k).foldl _ m = m' at hword hrest
      rw [hword (16 + k - 3) (by omega), hword (16 + k - 8) (by omega), hword (16 + k - 14) (by omega),
        hword (16 + k - 16) (by omega)]
      have hge := Sha1.schedule_ge M (t := 16 + k) (by omega)
      unfold Sha1.rotl at hge
      rw [← hge]
      refine ⟨fun t ht => ?_, fun x hx => ?_⟩
      · rcases Nat.lt_or_ge t (16 + k) with h | h
        · rw [loadWord_apart _ (by omega)]
          exact hword t h
        · obtain rfl : t = 16 + k := by omega
          exact loadWord_storeWord _ _ _
      · rw [← hrest x hx]
        exact Memory.storeWord_out _ (by omega)
  exact hloop 64 (Nat.le_refl 64)

theorem choice_eq (x y z : BitVec 32) : (x &&& y) ||| (~~~x &&& z) = (x &&& y) ^^^ (~~~x &&& z) := by
  refine BitVec.eq_of_getLsbD_eq fun i hi => ?_
  simp only [BitVec.getLsbD_or, BitVec.getLsbD_and, BitVec.getLsbD_xor, BitVec.getLsbD_not, hi]
  cases x.getLsbD i <;> cases y.getLsbD i <;> cases z.getLsbD i <;> rfl

theorem majority_eq (x y z : BitVec 32) :
    (x &&& y) ||| (x &&& z) ||| (y &&& z) = (x &&& y) ^^^ (x &&& z) ^^^ (y &&& z) := by
  refine BitVec.eq_of_getLsbD_eq fun i _ => ?_
  simp only [BitVec.getLsbD_or, BitVec.getLsbD_and, BitVec.getLsbD_xor]
  cases x.getLsbD i <;> cases y.getLsbD i <;> cases z.getLsbD i <;> rfl

theorem sha1Round_eq {W : Nat → BitVec 32} {i : Nat} (hW : loadWord m (wPtr + i * 4) = W i)
    (s : Sha1.Vars) : sha1Round m wPtr s i = Sha1.round W s i := by
  unfold sha1Round Sha1.round Sha1.f Sha1.K Sha1.rotl
  rw [hW, choice_eq, majority_eq]
  split_ifs <;> rfl

/-- A turn of the outer loop compresses its block, and changes only the schedule. -/
theorem sha1Block_spec (hapart : workPtr + off + 64 ≤ wPtr) (h : Sha1.Vars) :
    (sha1Block workPtr wPtr (m, h) off).2 = Sha1.compress h (m.read (workPtr + off) 64) ∧
    (∀ x, x < wPtr ∨ wPtr + 320 ≤ x → (sha1Block workPtr wPtr (m, h) off).1 x = m x) := by
  obtain ⟨hword, hrest⟩ := sha1Words_spec (m := m) hapart
  obtain ⟨hsched, hrest'⟩ := sha1Schedule_spec hword
  have hrounds : (List.range 80).foldl (sha1Round (sha1Schedule wPtr (sha1Words workPtr wPtr off m)) wPtr) h =
      (List.range 80).foldl (Sha1.round (Sha1.schedule (Sha1.word (m.read (workPtr + off) 64)))) h := by
    refine List.foldl_ext _ _ _ fun s i hi => ?_
    exact sha1Round_eq (hsched i (List.mem_range.mp hi)) s
  refine ⟨?_, fun x hx => (hrest' x hx).trans (hrest x hx)⟩
  unfold sha1Block Sha1.compress
  dsimp only
  rw [hrounds]

theorem sha1Blocks_spec (m : Memory) (workPtr wPtr : Nat) (offs : List Nat) (hoffs : ∀ off ∈ offs, workPtr + off + 64 ≤ wPtr)
    (h : Sha1.Vars) :
    (offs.foldl (sha1Block workPtr wPtr) (m, h)).2 =
      (offs.map fun off => m.read (workPtr + off) 64).foldl Sha1.compress h ∧
    (∀ x, x < wPtr ∨ wPtr + 320 ≤ x → (offs.foldl (sha1Block workPtr wPtr) (m, h)).1 x = m x) := by
  induction offs generalizing m h with
  | nil => exact ⟨rfl, fun _ _ => rfl⟩
  | cons off offs ih =>
    have hfirst := hoffs off List.mem_cons_self
    obtain ⟨hval, hrest⟩ := sha1Block_spec (m := m) hfirst h
    generalize hs : sha1Block workPtr wPtr (m, h) off = s at hval hrest
    obtain ⟨m', h'⟩ := s
    obtain ⟨hval', hrest'⟩ := ih m' (fun off h => hoffs off (List.mem_cons_of_mem _ h)) h'
    rw [List.foldl_cons, hs]
    refine ⟨?_, fun x hx => (hrest' x hx).trans (hrest x hx)⟩
    have hsame : (offs.map fun off => m'.read (workPtr + off) 64) =
        offs.map fun off => m.read (workPtr + off) 64 := by
      refine List.map_congr_left fun o ho => Memory.read_congr fun i hi => hrest _ ?_
      have := hoffs o (List.mem_cons_of_mem _ ho)
      omega
    rw [hval', hsame, List.map_cons, List.foldl_cons, ← hval]

end Block

section Sha

variable {m : Memory} {msgPtr msgLen outPtr workPtr : Nat}

theorem sha1Total_eq (msgLen : Nat) : sha1Total msgLen = (msgLen + 72) / 64 * 64 := by
  unfold sha1Total
  rw [Nat.shiftLeft_eq, Nat.shiftRight_eq_div_pow]

/-- What `sha1` writes before its loop is the padded message. -/
theorem sha1Pad_eq (hapart : msgPtr + msgLen ≤ workPtr ∨ workPtr + sha1Total msgLen ≤ msgPtr)
    (hbits : 8 * msgLen < 2 ^ 32) :
    sha1Pad m msgPtr msgLen workPtr = m.write workPtr (Sha1.pad (m.read msgPtr msgLen)) := by
  have htotal := sha1Total_eq msgLen
  have hread : (m.write workPtr (List.replicate (sha1Total msgLen) 0)).read msgPtr msgLen =
      m.read msgPtr msgLen := by
    refine Memory.read_congr fun i hi => Memory.write_out ?_
    rw [List.length_replicate]
    omega
  have hnum : (BitVec.ofNat 32 msgLen * 8).toNat = 8 * msgLen := by
    rw [BitVec.toNat_mul, BitVec.toNat_ofNat, show (8 : BitVec 32).toNat = 8 from rfl]
    omega
  have hhigh : Sha1.bigEndian 8 (8 * msgLen) = List.replicate 4 0 ++ Sha1.bigEndian 4 (8 * msgLen) := by
    have hzero : ∀ k, 4 ≤ k → UInt8.ofNat (8 * msgLen / 256 ^ k) = 0 := by
      intro k hk
      have hpow : 256 ^ 4 ≤ 256 ^ k := Nat.pow_le_pow_right (by omega) hk
      rw [Nat.div_eq_of_lt (by omega)]
      rfl
    simp only [Sha1.bigEndian, List.range_succ, List.range_zero, List.nil_append,
      List.map_cons, List.map_nil, List.cons_append]
    rw [hzero 7 (by omega), hzero 6 (by omega), hzero 5 (by omega), hzero 4 (by omega)]
    rfl
  unfold sha1Pad
  dsimp only
  rw [Memory.fill_eq_write, Memory.copy_eq_write, hread, storeBE_eq, hnum, Memory.store_eq_write]
  generalize hmsg : m.read msgPtr msgLen = msg
  have hlen : msg.length = msgLen := by rw [← hmsg, Memory.read_length]
  obtain ⟨z, hz⟩ : ∃ z, sha1Total msgLen = msgLen + (1 + ((z + 4) + 4)) :=
    ⟨sha1Total msgLen - msgLen - 9, by omega⟩
  have hpad : Sha1.pad msg =
      msg ++ ([0x80] ++ (List.replicate (z + 4) 0 ++ (Sha1.bigEndian 4 (8 * msgLen) ++ []))) := by
    unfold Sha1.pad
    rw [hlen, hhigh, show (119 - msgLen % 64) % 64 = z by omega, List.replicate_add]
    simp
  have hzeros : List.replicate (sha1Total msgLen) (0 : UInt8) = [] ++ (List.replicate msgLen 0 ++
      (List.replicate 1 0 ++ (List.replicate (z + 4) 0 ++ (List.replicate 4 0 ++ [])))) := by
    rw [hz]
    simp [List.replicate_add]
  have hmark : workPtr + msgLen = workPtr + msg.length := by rw [hlen]
  have hend : workPtr + sha1Total msgLen - 4 =
      workPtr + (msg ++ ([0x80] ++ List.replicate (z + 4) 0)).length := by
    simp only [List.length_append, List.length_singleton, List.length_replicate, hlen]
    omega
  calc (((m.write workPtr (List.replicate (sha1Total msgLen) 0)).write workPtr msg).write
        (workPtr + msgLen) [0x80]).write (workPtr + sha1Total msgLen - 4) (Sha1.bigEndian 4 (8 * msgLen))
      = ((m.write workPtr ([] ++ (msg ++ (List.replicate 1 0 ++ (List.replicate (z + 4) 0 ++
          (List.replicate 4 0 ++ [])))))).write (workPtr + msg.length) [0x80]).write
          (workPtr + sha1Total msgLen - 4) (Sha1.bigEndian 4 (8 * msgLen)) := by
        have hfirst : ∀ rest, (m.write workPtr ([] ++ (List.replicate msgLen 0 ++ rest))).write
            workPtr msg = m.write workPtr ([] ++ (msg ++ rest)) :=
          fun rest => Memory.write_patch [] rest (by simp [hlen])
        rw [hzeros, hmark, hfirst]
    _ = (m.write workPtr (msg ++ ([0x80] ++ List.replicate (z + 4) 0) ++ (List.replicate 4 0 ++ []))).write
          (workPtr + sha1Total msgLen - 4) (Sha1.bigEndian 4 (8 * msgLen)) := by
        rw [List.nil_append, Memory.write_patch msg _ (by simp)]
        simp only [List.append_assoc]
    _ = m.write workPtr (Sha1.pad msg) := by
        rw [hend, Memory.write_patch _ _ (by simp [Sha1.bigEndian]), hpad]
        simp only [List.append_assoc]

/-- The five words of the digest, one after another. -/
theorem storeDigest_eq (h : Sha1.Vars) :
    storeBE (storeBE (storeBE (storeBE (storeBE m outPtr h.a) (outPtr + 4) h.b) (outPtr + 8) h.c)
      (outPtr + 12) h.d) (outPtr + 16) h.e = m.write outPtr (Sha1.bytes h) := by
  have hfour : ∀ v, (Sha1.bigEndian 4 v).length = 4 := fun v => by simp [Sha1.bigEndian]
  have hnext : ∀ (xs : List UInt8) (k v : Nat), xs.length = k →
      (m.write outPtr xs).write (outPtr + k) (Sha1.bigEndian 4 v) =
        m.write outPtr (xs ++ Sha1.bigEndian 4 v) := by
    intro xs k v hk
    rw [← hk, Memory.write_write]
  simp only [storeBE_eq]
  rw [hnext _ 4 _ (hfour _), hnext _ 8 _ (by simp [hfour]), hnext _ 12 _ (by simp [hfour]),
    hnext _ 16 _ (by simp [hfour])]
  rfl

theorem bytes_length (h : Sha1.Vars) : (Sha1.bytes h).length = 20 := by
  simp [Sha1.bytes, Sha1.bigEndian]

/-- `sha1` stores the digest of its message, and changes only the digest and its work. -/
theorem sha1_spec (m : Memory) (msgPtr msgLen outPtr workPtr : Nat)
    (hapart : msgPtr + msgLen ≤ workPtr ∨ workPtr + sha1Total msgLen ≤ msgPtr)
    (hbits : 8 * msgLen < 2 ^ 32) :
    (sha1 m msgPtr msgLen outPtr workPtr).read outPtr 20 = Sha1.digest (m.read msgPtr msgLen) ∧
    (∀ x, (x < outPtr ∨ outPtr + 20 ≤ x) → (x < workPtr ∨ workPtr + (sha1Total msgLen + 320) ≤ x) →
      sha1 m msgPtr msgLen outPtr workPtr x = m x) := by
  have htotal := sha1Total_eq msgLen
  have hlen : (Sha1.pad (m.read msgPtr msgLen)).length = sha1Total msgLen := by
    rw [Sha1.pad_length, Memory.read_length, htotal]
  obtain ⟨hval, hrest⟩ := sha1Blocks_spec (m.write workPtr (Sha1.pad (m.read msgPtr msgLen)))
    workPtr (workPtr + sha1Total msgLen) (List.range' 0 (sha1Total msgLen / 64) 64) (fun off hoff => by
      obtain ⟨i, hi, rfl⟩ := List.mem_range'.mp hoff
      omega) Sha1.init
  have hblocks : ((List.range' 0 (sha1Total msgLen / 64) 64).map fun off =>
      (m.write workPtr (Sha1.pad (m.read msgPtr msgLen))).read (workPtr + off) 64) =
      Sha1.blocks (Sha1.pad (m.read msgPtr msgLen)) := by
    refine List.ext_getElem (by simp [Sha1.blocks, hlen]) fun j h₁ _ => ?_
    simp only [List.length_map, List.length_range'] at h₁
    simp only [Sha1.blocks, List.getElem_map, List.getElem_range', List.getElem_range, Nat.zero_add]
    refine List.ext_getElem (by simp [hlen]; omega) fun i h₂ _ => ?_
    rw [Memory.read_length] at h₂
    rw [Memory.read_getElem, List.getElem_take, List.getElem_drop, Nat.add_assoc,
      Memory.write_in (by rw [hlen]; omega)]
  rw [hblocks] at hval
  have hsha : sha1 m msgPtr msgLen outPtr workPtr = ((List.range' 0 (sha1Total msgLen / 64) 64).foldl
      (sha1Block workPtr (workPtr + sha1Total msgLen))
      (m.write workPtr (Sha1.pad (m.read msgPtr msgLen)), Sha1.init)).1.write outPtr
        (Sha1.digest (m.read msgPtr msgLen)) := by
    unfold sha1 Sha1.digest
    rw [← hval, ← storeDigest_eq, sha1Pad_eq hapart hbits]
    rfl
  have hdigest : (Sha1.digest (m.read msgPtr msgLen)).length = 20 := bytes_length _
  rw [hsha]
  refine ⟨?_, fun x hout hwork => ?_⟩
  · rw [← hdigest]
    exact Memory.read_write _
  · rw [Memory.write_out (by omega), hrest x (by omega), Memory.write_out (by omega)]

end Sha

/-! ## The accept value -/

section Accept

variable {b : Buffers} {m : Memory}

@[simp] theorem WS_GUID_length : WS_GUID.length = 36 := by decide

/-- The places the accept value is made in, for a message of `msgLen` bytes: the message, its
digest, the padded message and the schedule. -/
def acceptRegions (b : Buffers) (msgLen : Nat) : List (Nat × Nat) :=
  [(b.priv + PRIV_MSG_OFF, msgLen), (b.priv + PRIV_DIGEST_OFF, 20),
    (b.priv + PRIV_WORK_OFF, sha1Total msgLen), (b.priv + PRIV_WORK_OFF + sha1Total msgLen, 320)]

/-- Two places that share no byte. -/
def Apart (p q : Nat × Nat) : Prop := p.1 + p.2 ≤ q.1 ∨ q.1 + q.2 ≤ p.1

theorem sha1Total_le {msgLen : Nat} (h : msgLen ≤ 4096) : sha1Total msgLen ≤ 4160 := by
  rw [sha1Total_eq]
  omega

/-- No two of the places overlap, all lie in the private buffer, and none in the scratch. -/
theorem acceptRegions_apart (b : Buffers) {msgLen : Nat} (h : msgLen ≤ 4096) :
    (acceptRegions b msgLen).Pairwise Apart ∧
    ∀ r ∈ acceptRegions b msgLen, b.priv ≤ r.1 ∧ r.1 + r.2 ≤ b.priv + PRIV_SIZE ∧
      Apart r (b.scratch, SCRATCH_SIZE) := by
  have htotal := sha1Total_le h
  have hsize : PRIV_SIZE = 65536 := rfl
  have hmsg : PRIV_MSG_OFF = 0 := rfl
  have hdigest : PRIV_DIGEST_OFF = 4096 := rfl
  have hwork : PRIV_WORK_OFF = 8192 := rfl
  have hb := b.apart
  refine ⟨?_, ?_⟩
  · simp only [acceptRegions, List.pairwise_cons, List.mem_cons, List.not_mem_nil, or_false, Apart,
      forall_eq_or_imp, forall_eq, false_implies, implies_true, List.Pairwise.nil, and_true]
    omega
  · simp only [acceptRegions, List.mem_cons, List.not_mem_nil, or_false, Apart, forall_eq_or_imp,
      forall_eq]
    omega

/-- The message is the key and the GUID after it. -/
theorem acceptMessage_eq (keyLen : Nat) : acceptMessage b m keyLen =
    m.write (b.priv + PRIV_MSG_OFF) (m.read (b.scratch + 1) keyLen ++ WS_GUID) := by
  unfold acceptMessage
  dsimp only
  rw [Memory.foldl_store WS_GUID WS_GUID.length (Nat.le_refl _), List.take_length, Memory.copy_eq_write,
    ← Memory.write_write, Memory.read_length]

/-- `opAccept` answers the accept value of the key it is given, whatever memory held, and changes
nothing but its own places and the answer's. -/
theorem opAccept_spec {keyLen : Nat} (h : keyLen + WS_GUID.length ≤ 4096) :
    let answer := Base64.encode (Sha1.digest (m.read (b.scratch + 1) keyLen ++ WS_GUID))
    (opAccept b m (1 + keyLen)).2 = 28 ∧
    (opAccept b m (1 + keyLen)).1.read b.scratch 28 = answer ∧
    ∀ x, (∀ r ∈ acceptRegions b (keyLen + WS_GUID.length), x < r.1 ∨ r.1 + r.2 ≤ x) →
      (x < b.scratch ∨ b.scratch + 28 ≤ x) → (opAccept b m (1 + keyLen)).1 x = m x := by
  intro answer
  obtain ⟨hpair, hin⟩ := acceptRegions_apart b h
  simp only [acceptRegions, List.pairwise_cons, List.mem_cons, List.not_mem_nil, or_false, Apart,
    forall_eq_or_imp, forall_eq, false_implies, implies_true, List.Pairwise.nil, and_true] at hpair hin
  have hmessage := acceptMessage_eq (b := b) (m := m) keyLen
  generalize hkey : m.read (b.scratch + 1) keyLen ++ WS_GUID = msg at hmessage
  have hlen : msg.length = keyLen + WS_GUID.length := by
    rw [← hkey, List.length_append, Memory.read_length]
  obtain ⟨hdigest, hrest⟩ := sha1_spec (acceptMessage b m keyLen) (b.priv + PRIV_MSG_OFF)
    (keyLen + WS_GUID.length) (b.priv + PRIV_DIGEST_OFF) (b.priv + PRIV_WORK_OFF) (by omega) (by omega)
  have hread : (acceptMessage b m keyLen).read (b.priv + PRIV_MSG_OFF) (keyLen + WS_GUID.length) = msg := by
    rw [hmessage, ← hlen]
    exact Memory.read_write _
  rw [hread] at hdigest
  have hval : opAccept b m (1 + keyLen) = base64 (sha1 (acceptMessage b m keyLen)
      (b.priv + PRIV_MSG_OFF) (keyLen + WS_GUID.length) (b.priv + PRIV_DIGEST_OFF)
      (b.priv + PRIV_WORK_OFF)) (b.priv + PRIV_DIGEST_OFF) 20 b.scratch := by
    unfold opAccept
    rw [if_neg (by omega)]
    simp only [Nat.add_sub_cancel_left]
  have hsize : SCRATCH_SIZE = 2101248 := rfl
  rw [base64_eq _ (by omega), hdigest] at hval
  have hcount : (Base64.encode (Sha1.digest msg)).length = 28 := by
    rw [Base64.encode_length, Sha1.digest, bytes_length]
  have hanswer : answer = Base64.encode (Sha1.digest msg) := by
    show Base64.encode (Sha1.digest (m.read (b.scratch + 1) keyLen ++ WS_GUID)) = _
    rw [hkey]
  rw [hval, hanswer]
  refine ⟨hcount, ?_, fun x hx hscratch => ?_⟩
  · rw [← hcount]
    exact Memory.read_write _
  · simp only [acceptRegions, List.mem_cons, List.not_mem_nil, or_false, forall_eq_or_imp, forall_eq]
      at hx
    dsimp only
    rw [Memory.write_out (by omega), hrest x (by omega) (by omega), hmessage,
      Memory.write_out (by omega)]

theorem opBase64_spec {n : Nat} (h : n ≤ 4096) : opBase64 b m (1 + n) =
    (((m.copy (b.priv + PRIV_MSG_OFF) (b.scratch + 1) n).write b.scratch
      (Base64.encode (m.read (b.scratch + 1) n))), (Base64.encode (m.read (b.scratch + 1) n)).length) := by
  have hb := b.apart
  have hsize : SCRATCH_SIZE = 2101248 := rfl
  have hpriv : PRIV_SIZE = 65536 := rfl
  have hmsg : PRIV_MSG_OFF = 0 := rfl
  have hread : (m.copy (b.priv + PRIV_MSG_OFF) (b.scratch + 1) n).read (b.priv + PRIV_MSG_OFF) n =
      m.read (b.scratch + 1) n := by
    have hlen : (m.read (b.scratch + 1) n).length = n := Memory.read_length
    have h := Memory.read_write (m := m) (a := b.priv + PRIV_MSG_OFF) (m.read (b.scratch + 1) n)
    rwa [hlen, ← Memory.copy_eq_write] at h
  unfold opBase64
  rw [if_neg (by omega)]
  dsimp only
  rw [Nat.add_sub_cancel_left, base64_eq _ (by omega), hread]

/-- What a request for the module leaves in its scratch. -/
theorem request_read (op : UInt8) (args : Bytes) :
    (m.write b.scratch (op :: args)) b.scratch = op ∧
    (m.write b.scratch (op :: args)).read (b.scratch + 1) args.length = args := by
  refine ⟨Memory.write_in (m := m) (a := b.scratch) (i := 0) (List.length_pos_of_ne_nil (by simp)),
    Memory.read_eq_iff.mpr fun i hi => ?_⟩
  rw [Nat.add_assoc, Nat.add_comm 1 i, Memory.write_in (by simpa using hi)]
  rfl

theorem handle_accept (key : Bytes) : handle b (m.write b.scratch (OP_ACCEPT :: key))
    (OP_ACCEPT :: key).length = opAccept b (m.write b.scratch (OP_ACCEPT :: key)) (1 + key.length) := by
  obtain ⟨hop, -⟩ := request_read (b := b) (m := m) OP_ACCEPT key
  unfold handle
  rw [if_neg (by simp), hop, if_neg (by decide), if_pos rfl, List.length_cons, Nat.add_comm]

theorem handle_base64 (bytes : Bytes) : handle b (m.write b.scratch (OP_BASE64 :: bytes))
    (OP_BASE64 :: bytes).length =
      opBase64 b (m.write b.scratch (OP_BASE64 :: bytes)) (1 + bytes.length) := by
  obtain ⟨hop, -⟩ := request_read (b := b) (m := m) OP_BASE64 bytes
  unfold handle
  rw [if_neg (by simp), hop, if_neg (by decide), if_neg (by decide), if_pos rfl, List.length_cons,
    Nat.add_comm]

theorem digest_length (msg : Bytes) : (Base64.encode (Sha1.digest msg)).length = 28 := by
  rw [Base64.encode_length, Sha1.digest, bytes_length]

theorem call_accept {key : Bytes} (hkey : key.length + WS_GUID.length ≤ 4096) :
    call b m (OP_ACCEPT :: key) = some (Base64.encode (Sha1.digest (key ++ WS_GUID))) := by
  have hsize : SCRATCH_SIZE = 2101248 := rfl
  obtain ⟨hcount, hread, -⟩ := opAccept_spec (b := b) (m := m.write b.scratch (OP_ACCEPT :: key)) hkey
  obtain ⟨-, hargs⟩ := request_read (b := b) (m := m) OP_ACCEPT key
  rw [hargs] at hread
  unfold call
  rw [if_neg (by simp only [List.length_cons]; omega), handle_accept]
  dsimp only
  rw [hcount, hread]
  exact if_pos (by omega)

end Accept

/-- The accept value of every key there is room for, whatever the module's memory held; longer
keys are refused; base64 of every string. -/
theorem accept_value (b : Buffers) (m : Memory) :
    (∀ key : Bytes, key.length + WS_GUID.length ≤ 4096 →
      call b m (OP_ACCEPT :: key) = some (Base64.encode (Sha1.digest (key ++ WS_GUID))) ∧
      (Base64.encode (Sha1.digest (key ++ WS_GUID))).length = 28 ∧
      (acceptRegions b (key ++ WS_GUID).length).Pairwise Apart ∧
      (∀ r ∈ acceptRegions b (key ++ WS_GUID).length, b.priv ≤ r.1 ∧ r.1 + r.2 ≤ b.priv + PRIV_SIZE ∧
        Apart r (b.scratch, SCRATCH_SIZE)) ∧
      ∀ x, (∀ r ∈ acceptRegions b (key ++ WS_GUID).length, x < r.1 ∨ r.1 + r.2 ≤ x) →
        (x < b.scratch ∨ b.scratch + SCRATCH_SIZE ≤ x) →
        (handle b (m.write b.scratch (OP_ACCEPT :: key)) (OP_ACCEPT :: key).length).1 x = m x) ∧
    (∀ key : Bytes, 4096 < key.length + WS_GUID.length →
      (handle b (m.write b.scratch (OP_ACCEPT :: key)) (OP_ACCEPT :: key).length).2 = 0) ∧
    (∀ bytes : Bytes, bytes.length ≤ 4096 →
      call b m (OP_BASE64 :: bytes) = some (Base64.encode bytes)) ∧
    (∀ inPtr inLen outPtr, inPtr + inLen ≤ outPtr ∨ outPtr + (inLen + 2) / 3 * 4 ≤ inPtr →
      (base64 m inPtr inLen outPtr).1.read outPtr (base64 m inPtr inLen outPtr).2 =
        Base64.encode (m.read inPtr inLen)) := by
  have hsize : SCRATCH_SIZE = 2101248 := rfl
  have hguid := WS_GUID_length
  refine ⟨fun key hkey => ?_, fun key hkey => ?_, fun bytes hbytes => ?_,
    fun inPtr inLen outPtr hapart => ?_⟩
  · obtain ⟨-, -, hrest⟩ := opAccept_spec (b := b) (m := m.write b.scratch (OP_ACCEPT :: key)) hkey
    have hregions := acceptRegions_apart b hkey
    rw [List.length_append]
    refine ⟨call_accept hkey, digest_length _, hregions.1, hregions.2, fun x hx hscratch => ?_⟩
    · rw [handle_accept, hrest x hx (by omega), Memory.write_out]
      simp only [List.length_cons]
      omega
  · rw [handle_accept]
    unfold opAccept
    rw [if_pos (by omega)]
  · obtain ⟨-, hargs⟩ := request_read (b := b) (m := m) OP_BASE64 bytes
    have hlen := Base64.encode_length bytes
    unfold call
    rw [if_neg (by simp only [List.length_cons]; omega), handle_base64, opBase64_spec hbytes, hargs]
    dsimp only
    rw [if_pos (by omega), Memory.read_write]
  · rw [base64_eq m hapart]
    exact Memory.read_write _

/-- Scratch and private buffer, one after the other. -/
def buffers : Buffers := ⟨1024, 1024 + SCRATCH_SIZE, Or.inl (Nat.le_refl _)⟩

theorem accept_value_sample :
    call buffers (fun _ => 7) (OP_ACCEPT :: codes "dGhlIHNhbXBsZSBub25jZQ==") =
      some (codes "s3pPLMBiTxaQ9kYGzzhZRbK+xOo=") := by
  have h := ((accept_value buffers (fun _ => 7)).1 (codes "dGhlIHNhbXBsZSBub25jZQ==")
    (by decide)).1
  rw [h]
  decide +kernel

end SeedTransport.Ws
