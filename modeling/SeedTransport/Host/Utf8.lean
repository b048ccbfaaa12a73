import SeedTransport.Lib.Utf
import SeedTransport.Util

set_option autoImplicit false

namespace SeedTransport.Utf8

/-! UTF-8 for the realms without a `TextEncoder` (`utf8.ts`): the two loops over indices, and
that they write and read what the recursions over lists do. -/

open Utf (JsString)

/-! ### Encode -/

/-- A `Uint8Array` and the index of its next byte. A store past the end is ignored. -/
structure Out where
  out : Bytes
  n : Nat

/-- `out[n++] = v` -/
def Out.put (o : Out) (v : Nat) : Out := ⟨o.out.set o.n (UInt8.ofNat v), o.n + 1⟩

/-- One to four bytes for a code point. -/
def Out.point (o : Out) (c : Nat) : Out :=
  if c < 0x80 then o.put c
  else if c < 0x800 then (o.put (0xc0 ||| c >>> 6)).put (0x80 ||| c &&& 63)
  else if c < 0x10000 then
    ((o.put (0xe0 ||| c >>> 12)).put (0x80 ||| c >>> 6 &&& 63)).put (0x80 ||| c &&& 63)
  else
    (((o.put (0xf0 ||| c >>> 18)).put (0x80 ||| c >>> 12 &&& 63)).put
      (0x80 ||| c >>> 6 &&& 63)).put (0x80 ||| c &&& 63)

/-- `charCodeAt`, `NaN` past the end. -/
def charCodeAt (s : JsString) (i : Nat) : Option Nat := s[i]?.map UInt16.toNat

/-- The code point of the unit `c` at `i`, and the index of the last unit it took. -/
def pointAt (s : JsString) (i c : Nat) : Nat × Nat :=
  if 0xd800 ≤ c ∧ c ≤ 0xdfff then
    match charCodeAt s (i + 1) with
    | some lo =>
      if c < 0xdc00 ∧ 0xdc00 ≤ lo ∧ lo ≤ 0xdfff then
        (0x10000 + (c - 0xd800) <<< 10 + (lo - 0xdc00), i + 1)
      else (0xfffd, i)
    -- no comparison with `NaN` holds
    | none => (0xfffd, i)
  else (c, i)

/-- The loop, with at most `fuel` turns left. -/
def encodeFrom (s : JsString) : Nat → Nat → Out → Out
  | 0, _, o => o
  | fuel + 1, i, o =>
    match charCodeAt s i with
    | none => o
    | some c =>
      let (p, last) := pointAt s i c
      encodeFrom s fuel (last + 1) (o.point p)

def utf8Encode (s : JsString) : Bytes :=
  let o := encodeFrom s s.length 0 ⟨List.replicate (s.length * 3) 0, 0⟩
  o.out.take o.n

/-! ### Decode -/

/-- `b[i] & 63`; past the end it is 0. -/
def lowSix (b : Bytes) (i : Nat) : Nat := byteAt b i &&& 63

/-- The units of the sequence at `i`, as `fromCharCode` keeps 16 bits of them, and the index
after it. -/
def sequenceAt (b : Bytes) (i : Nat) : JsString × Nat :=
  let c := byteAt b i
  if c < 0x80 then ([UInt16.ofNat c], i + 1)
  else if c < 0xe0 then ([UInt16.ofNat ((c &&& 31) <<< 6 ||| lowSix b (i + 1))], i + 2)
  else if c < 0xf0 then
    ([UInt16.ofNat ((c &&& 15) <<< 12 ||| lowSix b (i + 1) <<< 6 ||| lowSix b (i + 2))], i + 3)
  else
    -- below zero for an overlong sequence
    let cp : Int := ((c &&& 7) <<< 18 ||| lowSix b (i + 1) <<< 12 ||| lowSix b (i + 2) <<< 6 |||
      lowSix b (i + 3) : Nat) - 0x10000
    ([(0xd800 : UInt16) ||| UInt16.ofInt (cp >>> (10 : Nat)), (0xdc00 : UInt16) ||| UInt16.ofInt (cp % 1024)], i + 4)

/-- The loop, with at most `fuel` turns left: the units not yet flushed, and the string. -/
def decodeFrom (b : Bytes) : Nat → Nat → JsString → JsString → JsString
  | 0, _, units, s => s ++ units
  | fuel + 1, i, units, s =>
    if i < b.length then
      let units := units ++ (sequenceAt b i).1
      let next := (sequenceAt b i).2
      if 4096 ≤ units.length then decodeFrom b fuel next [] (s ++ units)
      else decodeFrom b fuel next units s
    else s ++ units

def utf8Decode (b : Bytes) : JsString := decodeFrom b b.length 0 [] []

/-! ### What the encoder writes -/

def Out.written (o : Out) : Bytes := o.out.take o.n

theorem Out.put_written {o : Out} (h : o.n < o.out.length) (v : Nat) :
    (o.put v).written = o.written ++ [UInt8.ofNat v] := by
  unfold Out.put Out.written
  rw [List.take_add_one, List.take_set_of_le (Nat.le_refl _)]
  simp [h]

/-- The bits of a byte, read as a sum. -/
theorem or_low (k : Nat) {a b : Nat} (h : b < 2 ^ k) : a <<< k ||| b = a * 2 ^ k + b := by
  rw [← Nat.shiftLeft_add_eq_or_of_lt h, Nat.shiftLeft_eq]

theorem and_sixty_three (c : Nat) : c &&& 63 = c % 64 := Nat.and_two_pow_sub_one_eq_mod c 6

theorem cont_byte (c : Nat) : 0x80 ||| c &&& 63 = 0x80 + c % 64 := by
  have h := or_low 6 (a := 2) (Nat.mod_lt c (by decide : 2 ^ 6 > 0))
  rw [and_sixty_three]
  exact h

theorem Out.point_written {o : Out} {c : Nat} (hc : c < 0x110000)
    (h : o.n + (Utf.encodePoint c).length ≤ o.out.length) :
    (o.point c).written = o.written ++ Utf.encodePoint c ∧
    (o.point c).n = o.n + (Utf.encodePoint c).length ∧ (o.point c).out.length = o.out.length := by
  unfold Out.point
  unfold Utf.encodePoint at h ⊢
  split_ifs at h ⊢ with h1 h2 h3
  · simp only [List.length_cons, List.length_nil] at h
    exact ⟨Out.put_written (by omega) c, rfl, by simp [Out.put]⟩
  · have e : 0xc0 ||| c >>> 6 = 0xc0 + c / 64 := by
      have := or_low 6 (a := 3) (b := c / 64) (by omega)
      rw [Nat.shiftRight_eq_div_pow]
      exact this
    simp only [List.length_cons, List.length_nil] at h
    rw [e, cont_byte]
    refine ⟨?_, rfl, by simp [Out.put]⟩
    rw [Out.put_written (by simp [Out.put]; omega), Out.put_written (by omega)]
    simp
  · have e : 0xe0 ||| c >>> 12 = 0xe0 + c / 4096 := by
      have := or_low 5 (a := 7) (b := c / 4096) (by omega)
      rw [Nat.shiftRight_eq_div_pow]
      exact this
    simp only [List.length_cons, List.length_nil] at h
    rw [e, cont_byte, cont_byte, Nat.shiftRight_eq_div_pow]
    refine ⟨?_, rfl, by simp [Out.put]⟩
    rw [Out.put_written (by simp [Out.put]; omega), Out.put_written (by simp [Out.put]; omega),
      Out.put_written (by omega)]
    simp
  · have e : 0xf0 ||| c >>> 18 = 0xf0 + c / 262144 := by
      have := or_low 4 (a := 15) (b := c / 262144) (by omega)
      rw [Nat.shiftRight_eq_div_pow]
      exact this
    simp only [List.length_cons, List.length_nil] at h
    rw [e, cont_byte, cont_byte, cont_byte, Nat.shiftRight_eq_div_pow, Nat.shiftRight_eq_div_pow]
    refine ⟨?_, rfl, by simp [Out.put]⟩
    rw [Out.put_written (by simp [Out.put]; omega), Out.put_written (by simp [Out.put]; omega),
      Out.put_written (by simp [Out.put]; omega), Out.put_written (by omega)]
    simp

/-- A turn takes the next code point of the string, and moves past its units. -/
theorem pointAt_spec {s rest : JsString} {i : Nat} {u : UInt16} (h : s.drop i = u :: rest) :
    Utf.utf8Encode (u :: rest) = Utf.encodePoint (pointAt s i u.toNat).1 ++
      Utf.utf8Encode (s.drop ((pointAt s i u.toNat).2 + 1)) ∧
    (pointAt s i u.toNat).1 < 0x110000 ∧ i ≤ (pointAt s i u.toNat).2 := by
  have hu := u.toNat_lt
  have hrest : s.drop (i + 1) = rest := by
    rw [← List.tail_drop, h, List.tail_cons]
  have hnext : charCodeAt s (i + 1) = rest.head?.map UInt16.toNat := by
    rw [charCodeAt, ← hrest, List.head?_drop]
  have hunit : (Utf.isHigh u || Utf.isLow u) = true ↔ 0xd800 ≤ u.toNat ∧ u.toNat ≤ 0xdfff := by
    rw [Bool.or_eq_true, Utf.isHigh_iff, Utf.isLow_iff]
    omega
  unfold pointAt
  rw [hnext]
  cases rest with
  | nil =>
    rw [Utf.utf8Encode, Utf.encodeUnit]
    split_ifs with h1 h2 h2
    · exact ⟨by simp [hrest, Utf.utf8Encode], by simp, Nat.le_refl _⟩
    · exact absurd (hunit.mp h1) h2
    · exact absurd (hunit.mpr h2) h1
    · exact ⟨by simp [hrest, Utf.utf8Encode], by simp only; omega, Nat.le_refl _⟩
  | cons v rest =>
    have hv := v.toNat_lt
    have hrest' : s.drop (i + 2) = rest := by
      rw [← List.tail_drop, hrest, List.tail_cons]
    by_cases hpair : (Utf.isHigh u && Utf.isLow v) = true
    · rw [Utf.utf8Encode, if_pos hpair]
      rw [Bool.and_eq_true, Utf.isHigh_iff, Utf.isLow_iff] at hpair
      rw [if_pos (by omega)]
      simp only [List.head?_cons, Option.map_some]
      rw [if_pos (by omega)]
      refine ⟨?_, ?_, Nat.le_succ i⟩
      · rw [hrest', Nat.shiftLeft_eq]
        rfl
      · simp only [Nat.shiftLeft_eq]
        omega
    · rw [Utf.utf8Encode, if_neg hpair, Utf.encodeUnit]
      rw [Bool.and_eq_true, Utf.isHigh_iff, Utf.isLow_iff] at hpair
      simp only [List.head?_cons, Option.map_some]
      by_cases h1 : 0xd800 ≤ u.toNat ∧ u.toNat ≤ 0xdfff
      · rw [if_pos (hunit.mpr h1), if_pos h1, if_neg (by omega)]
        exact ⟨by rw [hrest], by simp, Nat.le_refl _⟩
      · rw [if_neg (fun h => h1 (hunit.mp h)), if_neg h1]
        exact ⟨by rw [hrest], by simp only; omega, Nat.le_refl _⟩

theorem encodeFrom_written {s : JsString} (fuel i : Nat) (o : Out) (hf : s.length ≤ i + fuel)
    (ho : o.n + (Utf.utf8Encode (s.drop i)).length ≤ o.out.length) :
    (encodeFrom s fuel i o).written = o.written ++ Utf.utf8Encode (s.drop i) := by
  induction fuel generalizing i o with
  | zero =>
    rw [List.drop_eq_nil_of_le (by omega)]
    simp [encodeFrom, Utf.utf8Encode]
  | succ fuel ih =>
    cases hd : s.drop i with
    | nil =>
      have hc : charCodeAt s i = none := by
        rw [charCodeAt, ← List.head?_drop, hd]
        rfl
      simp [encodeFrom, hc, Utf.utf8Encode]
    | cons u rest =>
      have hc : charCodeAt s i = some u.toNat := by
        rw [charCodeAt, ← List.head?_drop, hd]
        rfl
      obtain ⟨henc, hp, hle⟩ := pointAt_spec hd
      rw [hd, henc, List.length_append] at ho
      obtain ⟨hw, hn, hlen⟩ := Out.point_written hp (o := o) (by omega)
      simp only [encodeFrom, hc]
      rw [ih _ _ (by omega) (by omega), hw, henc, List.append_assoc]

theorem encodePoint_length {c : Nat} (h : c < 0x10000) : (Utf.encodePoint c).length ≤ 3 := by
  unfold Utf.encodePoint
  rw [if_pos h]
  split_ifs <;> simp

theorem encodeUnit_length (u : UInt16) : (Utf.encodeUnit u).length ≤ 3 := by
  have hu := u.toNat_lt
  exact encodePoint_length (by split_ifs <;> omega)

/-- Three bytes a unit are enough: a pair is four. -/
theorem utf8Encode_length (s : JsString) : (Utf.utf8Encode s).length ≤ s.length * 3 := by
  induction s using Utf.utf8Encode.induct with
  | case1 => exact Nat.le_refl _
  | case2 u => exact encodeUnit_length u
  | case3 u v s h ih =>
    have hp : (Utf.encodePoint (Utf.pairPoint u v)).length ≤ 4 := by
      unfold Utf.encodePoint
      split_ifs <;> simp
    rw [Utf.utf8Encode, if_pos h, List.length_append, List.length_cons, List.length_cons]
    omega
  | case4 u v s h ih =>
    have hu := encodeUnit_length u
    rw [Utf.utf8Encode, if_neg h, List.length_append, List.length_cons]
    omega

theorem utf8Encode_eq (s : JsString) : utf8Encode s = Utf.utf8Encode s := by
  have h := utf8Encode_length s
  exact encodeFrom_written s.length 0 ⟨List.replicate (s.length * 3) 0, 0⟩ (by omega) (by simpa using h)

/-! ### What the decoder reads -/

theorem lowSix_eq (b : Bytes) (i : Nat) : lowSix b i = Utf.tailBits (b.drop i) := by
  rw [lowSix, and_sixty_three, Utf.tailBits, byteAt, List.headD_eq_head?_getD, List.head?_drop,
    List.getD_eq_getElem?_getD]

theorem lowSix_lt (b : Bytes) (i : Nat) : lowSix b i < 2 ^ 6 := by
  rw [lowSix, and_sixty_three]
  exact Nat.mod_lt _ (by decide)

/-- The halves of a point below 2^21, its base subtracted, whatever the sign. -/
theorem pairUnits_eq {n : Nat} (hn : n < 2 ^ 21) :
    [(0xd800 : UInt16) ||| UInt16.ofInt (((n : Int) - 0x10000) >>> (10 : Nat)),
      (0xdc00 : UInt16) ||| UInt16.ofInt (((n : Int) - 0x10000) % 1024)] = Utf.pairUnits n := by
  have hlow : (0xdc00 : UInt16) ||| UInt16.ofInt (((n : Int) - 0x10000) % 1024) =
      UInt16.ofNat (0xdc00 + ((n : Int) - 0x10000) % 1024).toNat := by
    obtain ⟨k, hk⟩ : ∃ k : Nat, ((n : Int) - 0x10000) % 1024 = k := ⟨_, (Int.toNat_of_nonneg (by omega)).symm⟩
    have hlt : k < 2 ^ 10 := by omega
    have hor := or_low 10 (a := 55) hlt
    rw [hk]
    apply UInt16.toNat_inj.mp
    rw [UInt16.toNat_or, UInt16.ofInt, UInt16.toNat_ofNat', UInt16.toNat_ofNat']
    have h1 : ((k : Int) % 2 ^ 16).toNat % 2 ^ 16 = k := by omega
    have h2 : ((0xdc00 : Int) + k).toNat % 2 ^ 16 = 0xdc00 + k := by omega
    rw [h1, h2]
    exact hor
  have hhigh : (0xd800 : UInt16) ||| UInt16.ofInt (((n : Int) - 0x10000) >>> (10 : Nat)) =
      UInt16.ofNat ((if (n : Int) - 0x10000 < 0 then ((n : Int) - 0x10000) / 1024
        else 0xd800 + ((n : Int) - 0x10000) / 1024) % 65536).toNat := by
    rw [Int.shiftRight_eq_div_pow]
    apply UInt16.toNat_inj.mp
    rw [UInt16.toNat_or, UInt16.ofInt, UInt16.toNat_ofNat', UInt16.toNat_ofNat']
    split_ifs with hneg
    · obtain ⟨k, hk, hlt⟩ : ∃ k : Nat, (((n : Int) - 0x10000) / 1024) % 65536 = 0xffc0 + (k : Int) ∧ k < 64 :=
        ⟨((((n : Int) - 0x10000) / 1024) % 65536 - 0xffc0).toNat, by omega, by omega⟩
      have h1 : ((((n : Int) - 0x10000) / (2 ^ 10 : Nat)) % 2 ^ 16).toNat % 2 ^ 16 = 0xffc0 + k := by omega
      have h2 : ((((n : Int) - 0x10000) / 1024) % 65536).toNat % 2 ^ 16 = 0xffc0 + k := by omega
      rw [h1, h2]
      clear * - hlt
      revert k
      decide
    · obtain ⟨k, hk⟩ : ∃ k : Nat, ((n : Int) - 0x10000) / 1024 = k := ⟨_, (Int.toNat_of_nonneg (by omega)).symm⟩
      have hlt : k < 2 ^ 11 := by omega
      have hor := or_low 11 (a := 27) hlt
      have h1 : ((((n : Int) - 0x10000) / (2 ^ 10 : Nat)) % 2 ^ 16).toNat % 2 ^ 16 = k := by omega
      have h2 : ((0xd800 + ((n : Int) - 0x10000) / 1024) % 65536).toNat % 2 ^ 16 = 0xd800 + k := by omega
      rw [h1, h2]
      exact hor
  rw [hlow, hhigh]
  rfl

/-- A turn decodes one sequence, and moves past it. -/
theorem sequenceAt_spec {b rest : Bytes} {i : Nat} {c : UInt8} (fuel : Nat) (h : b.drop i = c :: rest) :
    Utf.utf8DecodeFrom (fuel + 1) (c :: rest) =
      (sequenceAt b i).1 ++ Utf.utf8DecodeFrom fuel (b.drop (sequenceAt b i).2) := by
  have hc : byteAt b i = c.toNat := by
    rw [byteAt, List.getD_eq_getElem?_getD, ← List.head?_drop, h]
    rfl
  have hlt := c.toNat_lt
  have hdrop (k : Nat) : b.drop (i + (k + 1)) = rest.drop k := by
    rw [Nat.add_comm k, ← Nat.add_assoc, ← List.drop_drop, ← List.tail_drop, h, List.tail_cons]
  have h1 : b.drop (i + 1) = rest := hdrop 0
  have h2 : b.drop (i + 2) = rest.tail := (hdrop 1).trans List.drop_one
  have b1 := lowSix_lt b (i + 1)
  have b2 := lowSix_lt b (i + 2)
  have b3 := lowSix_lt b (i + 3)
  have e1 : Utf.tailBits rest = lowSix b (i + 1) := by rw [lowSix_eq, h1]
  have e2 : Utf.tailBits rest.tail = lowSix b (i + 2) := by rw [lowSix_eq, h2]
  have e3 : Utf.tailBits (rest.drop 2) = lowSix b (i + 3) := by rw [lowSix_eq, hdrop 2]
  unfold sequenceAt
  rw [hc, Utf.utf8DecodeFrom, e1, e2, e3]
  simp only
  split_ifs with s1 s2 s3
  · rw [h1]
    rfl
  · have hbits : (c.toNat &&& 31) <<< 6 ||| lowSix b (i + 1) = c.toNat % 32 * 64 + lowSix b (i + 1) := by
      rw [or_low 6 b1, show c.toNat &&& 31 = c.toNat % 32 from Nat.and_two_pow_sub_one_eq_mod _ 5]
      omega
    rw [h2, hbits]
    rfl
  · have hbits : (c.toNat &&& 15) <<< 12 ||| lowSix b (i + 1) <<< 6 ||| lowSix b (i + 2) =
        c.toNat % 16 * 4096 + lowSix b (i + 1) * 64 + lowSix b (i + 2) := by
      rw [Nat.lor_assoc, or_low 6 b2, or_low 12 (by omega),
        show c.toNat &&& 15 = c.toNat % 16 from Nat.and_two_pow_sub_one_eq_mod _ 4]
      omega
    rw [hdrop 2, hbits]
    rfl
  · have hbits : (c.toNat &&& 7) <<< 18 ||| lowSix b (i + 1) <<< 12 ||| lowSix b (i + 2) <<< 6 ||| lowSix b (i + 3) =
        c.toNat % 8 * 262144 + lowSix b (i + 1) * 4096 + lowSix b (i + 2) * 64 + lowSix b (i + 3) := by
      rw [Nat.lor_assoc, Nat.lor_assoc, or_low 6 b3, or_low 12 (by omega), or_low 18 (by omega),
        show c.toNat &&& 7 = c.toNat % 8 from Nat.and_two_pow_sub_one_eq_mod _ 3]
      omega
    rw [hdrop 3, hbits, pairUnits_eq (by omega)]

theorem decodeFrom_eq (b : Bytes) (fuel i : Nat) (units s : JsString) :
    decodeFrom b fuel i units s = s ++ units ++ Utf.utf8DecodeFrom fuel (b.drop i) := by
  induction fuel generalizing i units s with
  | zero =>
    cases b.drop i <;> simp [decodeFrom, Utf.utf8DecodeFrom]
  | succ fuel ih =>
    unfold decodeFrom
    cases hd : b.drop i with
    | nil =>
      rw [if_neg (Nat.not_lt.mpr (List.drop_eq_nil_iff.mp hd))]
      simp [Utf.utf8DecodeFrom]
    | cons c rest =>
      have hi : i < b.length := by
        by_contra hge
        rw [List.drop_eq_nil_of_le (Nat.not_lt.mp hge)] at hd
        cases hd
      rw [if_pos hi, sequenceAt_spec fuel hd]
      simp only
      split_ifs <;> simp only [ih, List.append_assoc, List.nil_append]

theorem utf8Decode_eq (b : Bytes) : utf8Decode b = Utf.utf8Decode b := decodeFrom_eq b b.length 0 [] []

/-- Every string is written as the UTF-8 of its scalar values, each lone surrogate as U+FFFD, and reads
back as that well-formed string. All well-formed UTF-8 comes back from its string. -/
theorem utf8_codec :
    (∀ s : JsString, utf8Encode s = (Utf.scalars s).flatMap String.utf8EncodeChar ∧
      Utf.toWellFormed s = (Utf.scalars s).flatMap Utf.utf16 ∧
      utf8Decode (utf8Encode s) = Utf.toWellFormed s) ∧
    ∀ cs : List Char, utf8Encode (utf8Decode (cs.flatMap String.utf8EncodeChar)) =
      cs.flatMap String.utf8EncodeChar := by
  refine ⟨fun s => ⟨?_, Utf.toWellFormed_scalars s, ?_⟩, fun cs => ?_⟩
  · rw [utf8Encode_eq, Utf.utf8Encode_scalars]
  · rw [utf8Encode_eq, utf8Decode_eq, Utf.utf8Decode_toWellFormed]
  · rw [utf8Encode_eq, utf8Decode_eq, Utf.utf8Encode_utf8Decode]

end SeedTransport.Utf8
