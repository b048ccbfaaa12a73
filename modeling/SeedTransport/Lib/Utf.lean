import Mathlib

set_option autoImplicit false

/-! Strings of UTF-16 code units, as JavaScript has them, and their UTF-8. -/

namespace Utf

/-- A string is any list of code units, lone surrogates too. -/
abbrev JsString : Type := List UInt16

/-- The code units of a text below U+10000. -/
def js (s : String) : JsString := s.toList.map fun c => UInt16.ofNat c.toNat

def isHigh (u : UInt16) : Bool := decide (0xd800 ≤ u.toNat ∧ u.toNat < 0xdc00)

def isLow (u : UInt16) : Bool := decide (0xdc00 ≤ u.toNat ∧ u.toNat < 0xe000)

/-- `isWellFormed`: every surrogate is half of a pair. -/
def isWellFormed : JsString → Bool
  | [] => true
  | [u] => !isHigh u && !isLow u
  | u :: v :: s =>
    if isHigh u then isLow v && isWellFormed s else !isLow u && isWellFormed (v :: s)

/-- The bytes of one code point. -/
def encodePoint (c : Nat) : List UInt8 :=
  if c < 0x80 then [UInt8.ofNat c]
  else if c < 0x800 then [UInt8.ofNat (0xc0 + c / 64), UInt8.ofNat (0x80 + c % 64)]
  else if c < 0x10000 then
    [UInt8.ofNat (0xe0 + c / 4096), UInt8.ofNat (0x80 + c / 64 % 64), UInt8.ofNat (0x80 + c % 64)]
  else
    [UInt8.ofNat (0xf0 + c / 262144), UInt8.ofNat (0x80 + c / 4096 % 64),
      UInt8.ofNat (0x80 + c / 64 % 64), UInt8.ofNat (0x80 + c % 64)]

/-- The code point of a surrogate pair. -/
def pairPoint (u v : UInt16) : Nat := 0x10000 + (u.toNat - 0xd800) * 1024 + (v.toNat - 0xdc00)

/-- A code unit that is not half of a pair: a surrogate is written as U+FFFD. -/
def encodeUnit (u : UInt16) : List UInt8 :=
  encodePoint (if isHigh u || isLow u then 0xfffd else u.toNat)

def utf8Encode : JsString → List UInt8
  | [] => []
  | [u] => encodeUnit u
  | u :: v :: s =>
    if isHigh u && isLow v then encodePoint (pairPoint u v) ++ utf8Encode s
    else encodeUnit u ++ utf8Encode (v :: s)

/-- The low six bits of the next byte, which may be missing. -/
def tailBits (b : List UInt8) : Nat := (b.headD 0).toNat % 64

/-- The code units of a four-byte sequence. Below U+10000 the source's `|` and `>>` are of a
negative number. -/
def pairUnits (c : Nat) : JsString :=
  let cp : Int := (c : Int) - 0x10000
  let high := if cp < 0 then cp / 1024 else 0xd800 + cp / 1024
  [UInt16.ofNat (high % 65536).toNat, UInt16.ofNat (0xdc00 + cp % 1024).toNat]

/-- `utf8Decode` with at most `fuel` code points left. -/
def utf8DecodeFrom : Nat → List UInt8 → JsString
  | _, [] => []
  | 0, _ => []
  | fuel + 1, c :: b =>
    if c.toNat < 0x80 then UInt16.ofNat c.toNat :: utf8DecodeFrom fuel b
    else if c.toNat < 0xe0 then
      UInt16.ofNat (c.toNat % 32 * 64 + tailBits b) :: utf8DecodeFrom fuel b.tail
    else if c.toNat < 0xf0 then
      UInt16.ofNat (c.toNat % 16 * 4096 + tailBits b * 64 + tailBits b.tail) ::
        utf8DecodeFrom fuel (b.drop 2)
    else
      pairUnits (c.toNat % 8 * 262144 + tailBits b * 4096 + tailBits b.tail * 64 +
        tailBits (b.drop 2)) ++ utf8DecodeFrom fuel (b.drop 3)

/-- What a text of UTF-8 says, by lead bytes alone. -/
def utf8Decode (b : List UInt8) : JsString := utf8DecodeFrom b.length b

/-! What the encoder writes reads back. -/

theorem isHigh_iff (u : UInt16) : isHigh u = true ↔ 0xd800 ≤ u.toNat ∧ u.toNat < 0xdc00 := by
  simp [isHigh]

theorem isLow_iff (u : UInt16) : isLow u = true ↔ 0xdc00 ≤ u.toNat ∧ u.toNat < 0xe000 := by
  simp [isLow]

theorem encodePoint_ne_nil (c : Nat) : encodePoint c ≠ [] := by
  unfold encodePoint
  split_ifs <;> simp

theorem ofNat_toNat (n : Nat) (h : n < 256) : (UInt8.ofNat n).toNat = n := by
  simp [UInt8.toNat_ofNat', Nat.mod_eq_of_lt h]

/-- One code point below U+10000 that is no surrogate. -/
theorem decode_point (fuel : Nat) (u : UInt16) (b : List UInt8) :
    utf8DecodeFrom (fuel + 1) (encodePoint u.toNat ++ b) = u :: utf8DecodeFrom fuel b := by
  have hu := u.toNat_lt
  have hback : ∀ n, n = u.toNat → UInt16.ofNat n = u := by
    rintro n rfl
    simp
  unfold encodePoint
  split_ifs with h1 h2 h3
  · have hc := ofNat_toNat u.toNat (by omega)
    simp only [List.cons_append, List.nil_append, utf8DecodeFrom, hc, h1, if_true]
    rw [hback _ rfl]
  · have hc := ofNat_toNat (0xc0 + u.toNat / 64) (by omega)
    have ht := ofNat_toNat (0x80 + u.toNat % 64) (by omega)
    have h80 : ¬ 0xc0 + u.toNat / 64 < 0x80 := by omega
    have he0 : 0xc0 + u.toNat / 64 < 0xe0 := by omega
    simp only [List.cons_append, List.nil_append, utf8DecodeFrom, hc, h80, he0, if_true, if_false,
      tailBits, List.headD_cons, ht, List.tail_cons]
    rw [hback _ (by omega)]
  · have hc := ofNat_toNat (0xe0 + u.toNat / 4096) (by omega)
    have ht := ofNat_toNat (0x80 + u.toNat / 64 % 64) (by omega)
    have ht' := ofNat_toNat (0x80 + u.toNat % 64) (by omega)
    have h80 : ¬ 0xe0 + u.toNat / 4096 < 0x80 := by omega
    have he0 : ¬ 0xe0 + u.toNat / 4096 < 0xe0 := by omega
    have hf0 : 0xe0 + u.toNat / 4096 < 0xf0 := by omega
    simp only [List.cons_append, List.nil_append, utf8DecodeFrom, hc, h80, he0, hf0, if_true,
      if_false, tailBits, List.headD_cons, ht, ht', List.tail_cons, List.drop_succ_cons,
      List.drop_zero]
    rw [hback _ (by omega)]

theorem decode_pair (fuel : Nat) {u v : UInt16} (hu : isHigh u = true) (hv : isLow v = true)
    (b : List UInt8) : utf8DecodeFrom (fuel + 1) (encodePoint (pairPoint u v) ++ b) =
      u :: v :: utf8DecodeFrom fuel b := by
  rw [isHigh_iff] at hu
  rw [isLow_iff] at hv
  obtain ⟨p, hp⟩ : ∃ p, p = pairPoint u v := ⟨_, rfl⟩
  have hpe : p = 0x10000 + (u.toNat - 0xd800) * 1024 + (v.toNat - 0xdc00) := hp
  have hpu : pairUnits p = [u, v] := by
    have hneg : ¬ (p : Int) - 0x10000 < 0 := by omega
    simp only [pairUnits, hneg, if_false]
    have h1 : ((0xd800 + ((p : Int) - 0x10000) / 1024) % 65536).toNat = u.toNat := by omega
    have h2 : (0xdc00 + ((p : Int) - 0x10000) % 1024).toNat = v.toNat := by omega
    rw [h1, h2]
    simp
  rw [← hp]
  have hc := ofNat_toNat (0xf0 + p / 262144) (by omega)
  have h1 := ofNat_toNat (0x80 + p / 4096 % 64) (by omega)
  have h2 := ofNat_toNat (0x80 + p / 64 % 64) (by omega)
  have h3 := ofNat_toNat (0x80 + p % 64) (by omega)
  have n1 : ¬ p < 0x80 := by omega
  have n2 : ¬ p < 0x800 := by omega
  have n3 : ¬ p < 0x10000 := by omega
  have m1 : ¬ 0xf0 + p / 262144 < 0x80 := by omega
  have m2 : ¬ 0xf0 + p / 262144 < 0xe0 := by omega
  have m3 : ¬ 0xf0 + p / 262144 < 0xf0 := by omega
  simp only [encodePoint, n1, n2, n3, if_false, List.cons_append, List.nil_append, utf8DecodeFrom,
    hc, m1, m2, m3, tailBits, List.headD_cons, h1, h2, h3, List.tail_cons, List.drop_succ_cons,
    List.drop_zero]
  have hback : (0xf0 + p / 262144) % 8 * 262144 + (0x80 + p / 4096 % 64) % 64 * 4096 +
      (0x80 + p / 64 % 64) % 64 * 64 + (0x80 + p % 64) % 64 = p := by omega
  rw [hback, hpu]
  rfl

theorem decode_encode (s : JsString) (hs : isWellFormed s = true) (fuel : Nat)
    (hf : (utf8Encode s).length ≤ fuel) : utf8DecodeFrom fuel (utf8Encode s) = s := by
  induction s using utf8Encode.induct generalizing fuel with
  | case1 => cases fuel <;> rfl
  | case2 u =>
    simp only [isWellFormed, Bool.and_eq_true, Bool.not_eq_true'] at hs
    have henc : utf8Encode [u] = encodePoint u.toNat ++ [] := by
      simp [utf8Encode, encodeUnit, hs.1, hs.2]
    rw [henc] at hf ⊢
    have hpos := List.length_pos_iff.2 (encodePoint_ne_nil u.toNat)
    cases fuel with
    | zero => simp at hf; exact absurd hf (encodePoint_ne_nil _)
    | succ fuel =>
      rw [decode_point]
      cases fuel <;> rfl
  | case3 u v s hpair ih =>
    simp only [Bool.and_eq_true] at hpair
    simp only [isWellFormed, hpair.1, if_true, Bool.and_eq_true] at hs
    have henc : utf8Encode (u :: v :: s) = encodePoint (pairPoint u v) ++ utf8Encode s := by
      simp [utf8Encode, hpair.1, hpair.2]
    rw [henc] at hf ⊢
    have hpos := List.length_pos_iff.2 (encodePoint_ne_nil (pairPoint u v))
    rw [List.length_append] at hf
    cases fuel with
    | zero => omega
    | succ fuel => rw [decode_pair fuel hpair.1 hpair.2, ih hs.2 fuel (by omega)]
  | case4 u v s hpair ih =>
    simp only [Bool.and_eq_true, not_and] at hpair
    have hhigh : isHigh u = false := by
      by_contra hh
      simp only [Bool.not_eq_false] at hh
      simp only [isWellFormed, hh, if_true, Bool.and_eq_true] at hs
      exact hpair hh hs.1
    simp only [isWellFormed, hhigh, Bool.false_eq_true, if_false, Bool.and_eq_true,
      Bool.not_eq_true'] at hs
    have henc : utf8Encode (u :: v :: s) = encodePoint u.toNat ++ utf8Encode (v :: s) := by
      simp [utf8Encode, encodeUnit, hhigh, hs.1]
    rw [henc] at hf ⊢
    have hpos := List.length_pos_iff.2 (encodePoint_ne_nil u.toNat)
    rw [List.length_append] at hf
    cases fuel with
    | zero => omega
    | succ fuel => rw [decode_point, ih hs.2 fuel (by omega)]

/-- A string of whole pairs comes back from its UTF-8. -/
theorem utf8Decode_utf8Encode {s : JsString} (hs : isWellFormed s = true) :
    utf8Decode (utf8Encode s) = s := decode_encode s hs _ le_rfl

/-! ### Scalar values -/

/-- A code unit that is not half of a pair: a surrogate stands for U+FFFD. -/
def scalarUnit (u : UInt16) : Char := if isHigh u || isLow u then Char.ofNat 0xfffd else Char.ofNat u.toNat

/-- The scalar values of a string. -/
def scalars : JsString → List Char
  | [] => []
  | [u] => [scalarUnit u]
  | u :: v :: s =>
    if isHigh u && isLow v then Char.ofNat (pairPoint u v) :: scalars s
    else scalarUnit u :: scalars (v :: s)

/-- The code units of a scalar value. -/
def utf16 (c : Char) : JsString :=
  if c.toNat < 0x10000 then [UInt16.ofNat c.toNat]
  else [UInt16.ofNat (0xd800 + (c.toNat - 0x10000) / 1024), UInt16.ofNat (0xdc00 + (c.toNat - 0x10000) % 1024)]

/-- `toWellFormed`: each surrogate that is not half of a pair is replaced by U+FFFD. -/
def toWellFormed : JsString → JsString
  | [] => []
  | [u] => [if isHigh u || isLow u then 0xfffd else u]
  | u :: v :: s =>
    if isHigh u && isLow v then u :: v :: toWellFormed s
    else (if isHigh u || isLow u then 0xfffd else u) :: toWellFormed (v :: s)

theorem char_toNat_of_valid {n : Nat} (h : n.isValidChar) : (Char.ofNat n).toNat = n := by
  simp [Char.ofNat, h, Char.toNat, Char.ofNatAux]

theorem scalarUnit_toNat (u : UInt16) :
    (scalarUnit u).toNat = if isHigh u || isLow u then 0xfffd else u.toNat := by
  unfold scalarUnit
  split_ifs with h
  · rfl
  · simp only [Bool.or_eq_true, isHigh_iff, isLow_iff] at h
    have hu := u.toNat_lt
    exact char_toNat_of_valid (by unfold Nat.isValidChar; omega)

theorem pair_toNat {u v : UInt16} (hu : isHigh u = true) (hv : isLow v = true) :
    (Char.ofNat (pairPoint u v)).toNat = pairPoint u v := by
  rw [isHigh_iff] at hu
  rw [isLow_iff] at hv
  exact char_toNat_of_valid (by unfold Nat.isValidChar pairPoint; omega)

theorem char_bounds (c : Char) : c.toNat < 0xd800 ∨ 0xdfff < c.toNat ∧ c.toNat < 0x110000 := c.valid

/-- The bytes that a code point is written as are those of the character. -/
theorem encodePoint_char (c : Char) : encodePoint c.toNat = String.utf8EncodeChar c := by
  have hc := char_bounds c
  have hval : c.val.toNat = c.toNat := rfl
  unfold encodePoint String.utf8EncodeChar
  rw [hval]
  by_cases h1 : c.toNat < 0x80
  · rw [if_pos h1, if_pos (by omega)]
  by_cases h2 : c.toNat < 0x800
  · rw [if_neg h1, if_pos h2, if_neg (show ¬ c.toNat ≤ 0x7f by omega), if_pos (by omega)]
    have e1 : 0xc0 + c.toNat / 64 = c.toNat / 64 % 32 + 0xc0 := by omega
    have e2 : 0x80 + c.toNat % 64 = c.toNat % 64 + 0x80 := by omega
    rw [e1, e2]
  by_cases h3 : c.toNat < 0x10000
  · rw [if_neg h1, if_neg h2, if_pos h3, if_neg (show ¬ c.toNat ≤ 0x7f by omega),
      if_neg (show ¬ c.toNat ≤ 0x7ff by omega), if_pos (by omega)]
    have e1 : 0xe0 + c.toNat / 4096 = c.toNat / 4096 % 16 + 0xe0 := by omega
    have e2 : 0x80 + c.toNat / 64 % 64 = c.toNat / 64 % 64 + 0x80 := by omega
    have e3 : 0x80 + c.toNat % 64 = c.toNat % 64 + 0x80 := by omega
    rw [e1, e2, e3]
  · rw [if_neg h1, if_neg h2, if_neg h3, if_neg (show ¬ c.toNat ≤ 0x7f by omega),
      if_neg (show ¬ c.toNat ≤ 0x7ff by omega), if_neg (show ¬ c.toNat ≤ 0xffff by omega)]
    have e1 : 0xf0 + c.toNat / 262144 = c.toNat / 262144 % 8 + 0xf0 := by omega
    have e2 : 0x80 + c.toNat / 4096 % 64 = c.toNat / 4096 % 64 + 0x80 := by omega
    have e3 : 0x80 + c.toNat / 64 % 64 = c.toNat / 64 % 64 + 0x80 := by omega
    have e4 : 0x80 + c.toNat % 64 = c.toNat % 64 + 0x80 := by omega
    rw [e1, e2, e3, e4]

theorem utf8Encode_scalars (s : JsString) : utf8Encode s = (scalars s).flatMap String.utf8EncodeChar := by
  induction s using utf8Encode.induct with
  | case1 => rfl
  | case2 u => simp [utf8Encode, scalars, encodeUnit, ← encodePoint_char, scalarUnit_toNat]
  | case3 u v s h ih =>
    have hp := h
    simp only [Bool.and_eq_true] at hp
    rw [utf8Encode, scalars, if_pos h, if_pos h, ih, List.flatMap_cons, ← encodePoint_char, pair_toNat hp.1 hp.2]
  | case4 u v s h ih =>
    rw [utf8Encode, scalars, if_neg h, if_neg h, ih, List.flatMap_cons, ← encodePoint_char, scalarUnit_toNat, encodeUnit]

theorem utf16_scalarUnit (u : UInt16) :
    utf16 (scalarUnit u) = [if isHigh u || isLow u then 0xfffd else u] := by
  have hu := u.toNat_lt
  unfold utf16
  rw [scalarUnit_toNat]
  split_ifs
  · rfl
  · omega
  · simp

theorem utf16_pair {u v : UInt16} (hu : isHigh u = true) (hv : isLow v = true) :
    utf16 (Char.ofNat (pairPoint u v)) = [u, v] := by
  have hp := pair_toNat hu hv
  rw [isHigh_iff] at hu
  rw [isLow_iff] at hv
  have hpe : pairPoint u v = 0x10000 + (u.toNat - 0xd800) * 1024 + (v.toNat - 0xdc00) := rfl
  have h1 : 0xd800 + (pairPoint u v - 0x10000) / 1024 = u.toNat := by omega
  have h2 : 0xdc00 + (pairPoint u v - 0x10000) % 1024 = v.toNat := by omega
  unfold utf16
  rw [hp, if_neg (by omega), h1, h2]
  simp

theorem toWellFormed_scalars (s : JsString) : toWellFormed s = (scalars s).flatMap utf16 := by
  induction s using toWellFormed.induct with
  | case1 => rfl
  | case2 u => simp [toWellFormed, scalars, utf16_scalarUnit]
  | case3 u v s h ih =>
    have hp := h
    simp only [Bool.and_eq_true] at hp
    rw [toWellFormed, scalars, if_pos h, if_pos h, ih, List.flatMap_cons, utf16_pair hp.1 hp.2]
    rfl
  | case4 u v s h ih =>
    rw [toWellFormed, scalars, if_neg h, if_neg h, ih, List.flatMap_cons, utf16_scalarUnit]
    rfl

/-- The units of a character above U+FFFF are a pair, and the pair's point is the character. -/
theorem utf16_astral {c : Char} (h : ¬ c.toNat < 0x10000) :
    ∃ u v, utf16 c = [u, v] ∧ isHigh u = true ∧ isLow v = true ∧ pairPoint u v = c.toNat := by
  have hc := char_bounds c
  refine ⟨_, _, if_neg h, ?_, ?_, ?_⟩
  · rw [isHigh_iff, UInt16.toNat_ofNat']
    omega
  · rw [isLow_iff, UInt16.toNat_ofNat']
    omega
  · unfold pairPoint
    rw [UInt16.toNat_ofNat', UInt16.toNat_ofNat']
    omega

theorem utf16_basic {c : Char} (h : c.toNat < 0x10000) :
    ∃ u, utf16 c = [u] ∧ isHigh u = false ∧ isLow u = false ∧ u.toNat = c.toNat := by
  have hc := char_bounds c
  have hu : (UInt16.ofNat c.toNat).toNat = c.toNat := by
    rw [UInt16.toNat_ofNat']
    omega
  refine ⟨_, if_pos h, ?_, ?_, hu⟩
  · rw [Bool.eq_false_iff, Ne, isHigh_iff, hu]
    omega
  · rw [Bool.eq_false_iff, Ne, isLow_iff, hu]
    omega

theorem scalars_utf16 (cs : List Char) : scalars (cs.flatMap utf16) = cs := by
  induction cs with
  | nil => rfl
  | cons c cs ih =>
    rw [List.flatMap_cons]
    by_cases h : c.toNat < 0x10000
    · obtain ⟨u, hu, hhigh, hlow, hn⟩ := utf16_basic h
      have hc : scalarUnit u = c := by
        rw [scalarUnit, hhigh, hlow, hn]
        exact Char.ofNat_toNat c
      rw [hu]
      cases hrest : cs.flatMap utf16 with
      | nil =>
        rw [hrest] at ih
        rw [List.append_nil, scalars, hc, ← ih, scalars]
      | cons v s =>
        rw [hrest] at ih
        rw [List.singleton_append, scalars, hhigh, ih, hc]
        rfl
    · obtain ⟨u, v, hu, hhigh, hlow, hn⟩ := utf16_astral h
      rw [hu, List.cons_append, List.cons_append, List.nil_append, scalars, hhigh, hlow, ih, hn]
      exact congrArg (· :: cs) (Char.ofNat_toNat c)

theorem decode_char (fuel : Nat) (c : Char) (b : List UInt8) :
    utf8DecodeFrom (fuel + 1) (String.utf8EncodeChar c ++ b) = utf16 c ++ utf8DecodeFrom fuel b := by
  rw [← encodePoint_char]
  by_cases h : c.toNat < 0x10000
  · obtain ⟨u, hu, -, -, hn⟩ := utf16_basic h
    rw [hu, ← hn]
    exact decode_point fuel u b
  · obtain ⟨u, v, hu, hhigh, hlow, hn⟩ := utf16_astral h
    rw [hu, ← hn]
    exact decode_pair fuel hhigh hlow b

theorem decode_chars (cs : List Char) (fuel : Nat) (hf : (cs.flatMap String.utf8EncodeChar).length ≤ fuel) :
    utf8DecodeFrom fuel (cs.flatMap String.utf8EncodeChar) = cs.flatMap utf16 := by
  induction cs generalizing fuel with
  | nil => cases fuel <;> rfl
  | cons c cs ih =>
    have hpos : 0 < (String.utf8EncodeChar c).length := List.length_pos_iff.2 String.utf8EncodeChar_ne_nil
    rw [List.flatMap_cons, List.length_append] at hf
    cases fuel with
    | zero => omega
    | succ fuel => rw [List.flatMap_cons, List.flatMap_cons, decode_char, ih fuel (by omega)]

theorem utf8Decode_chars (cs : List Char) : utf8Decode (cs.flatMap String.utf8EncodeChar) = cs.flatMap utf16 :=
  decode_chars cs _ le_rfl

/-- Any string comes back from its UTF-8 well formed. -/
theorem utf8Decode_toWellFormed (s : JsString) : utf8Decode (utf8Encode s) = toWellFormed s := by
  rw [utf8Encode_scalars, utf8Decode_chars, toWellFormed_scalars]

/-- Well-formed UTF-8 comes back from its string. -/
theorem utf8Encode_utf8Decode (cs : List Char) :
    utf8Encode (utf8Decode (cs.flatMap String.utf8EncodeChar)) = cs.flatMap String.utf8EncodeChar := by
  rw [utf8Decode_chars, utf8Encode_scalars, scalars_utf16]

/-! ### `TextDecoder` -/

/-- A decoder inside a sequence: the bytes still needed, the bits so far, and the bounds of
the next byte. -/
structure Decoder where
  needed : Nat
  point : Nat
  lower : Nat
  upper : Nat

def Decoder.idle : Decoder := ⟨0, 0, 0x80, 0xbf⟩

/-- The first byte of a sequence. -/
def Decoder.lead (b : Nat) : List Nat × Decoder :=
  if b < 0x80 then ([b], idle)
  else if 0xc2 ≤ b ∧ b ≤ 0xdf then ([], ⟨1, b % 32, 0x80, 0xbf⟩)
  else if 0xe0 ≤ b ∧ b ≤ 0xef then
    ([], ⟨2, b % 16, if b = 0xe0 then 0xa0 else 0x80, if b = 0xed then 0x9f else 0xbf⟩)
  else if 0xf0 ≤ b ∧ b ≤ 0xf4 then
    ([], ⟨3, b % 8, if b = 0xf0 then 0x90 else 0x80, if b = 0xf4 then 0x8f else 0xbf⟩)
  else ([0xfffd], idle)

/-- One byte more. One that does not continue the sequence ends it with U+FFFD, and leads. -/
def Decoder.feed (d : Decoder) (b : Nat) : List Nat × Decoder :=
  if d.needed = 0 then lead b
  else if b < d.lower ∨ d.upper < b then (0xfffd :: (lead b).1, (lead b).2)
  else if d.needed = 1 then ([d.point * 64 + b % 64], idle)
  else ([], ⟨d.needed - 1, d.point * 64 + b % 64, 0x80, 0xbf⟩)

def Decoder.points (d : Decoder) : List UInt8 → List Nat
  | [] => if d.needed = 0 then [] else [0xfffd]
  | b :: bs => (d.feed b.toNat).1 ++ (d.feed b.toNat).2.points bs

/-- `ignoreBOM` is false: one U+FEFF in front is dropped. -/
def dropBom : List Char → List Char
  | [] => []
  | c :: cs => if c.toNat = 0xfeff then cs else c :: cs

/-- `new TextDecoder().decode(b)` -/
def textDecode (b : List UInt8) : JsString :=
  (dropBom ((Decoder.idle.points b).map Char.ofNat)).flatMap utf16

/-- A byte within its bounds that is not the sequence's last. -/
theorem Decoder.feed_more {k p lo hi b : Nat} (h : lo ≤ b ∧ b ≤ hi) :
    (Decoder.mk (k + 2) p lo hi).feed b = ([], ⟨k + 1, p * 64 + b % 64, 0x80, 0xbf⟩) := by
  unfold feed
  rw [if_neg (by simp), if_neg (by simp only; omega), if_neg (by simp)]
  rfl

theorem Decoder.feed_last {p lo hi b n : Nat} (h : lo ≤ b ∧ b ≤ hi) (hn : p * 64 + b % 64 = n) :
    (Decoder.mk 1 p lo hi).feed b = ([n], idle) := by
  unfold feed
  rw [if_neg Nat.one_ne_zero, if_neg (by simp only; omega), if_pos rfl]
  simp only [hn]

theorem Decoder.points_char (c : Char) (bs : List UInt8) :
    idle.points (String.utf8EncodeChar c ++ bs) = c.toNat :: idle.points bs := by
  have hc := char_bounds c
  rw [← encodePoint_char]
  generalize c.toNat = n at hc ⊢
  have hfirst (b : Nat) : idle.feed b = lead b := if_pos rfl
  unfold encodePoint
  split_ifs with h1 h2 h3
  · have e0 := ofNat_toNat n (by omega)
    simp only [List.cons_append, List.nil_append, points, e0, hfirst]
    rw [lead, if_pos h1]
    rfl
  · have e0 := ofNat_toNat (0xc0 + n / 64) (by omega)
    have e1 := ofNat_toNat (0x80 + n % 64) (by omega)
    simp only [List.cons_append, List.nil_append, points, e0, e1, hfirst]
    rw [lead, if_neg (by omega), if_pos (by omega)]
    dsimp only
    rw [feed_last (n := n) (by omega) (by omega)]
    rfl
  · have e0 := ofNat_toNat (0xe0 + n / 4096) (by omega)
    have e1 := ofNat_toNat (0x80 + n / 64 % 64) (by omega)
    have e2 := ofNat_toNat (0x80 + n % 64) (by omega)
    simp only [List.cons_append, List.nil_append, points, e0, e1, e2, hfirst]
    rw [lead, if_neg (by omega), if_neg (by omega), if_pos (by omega)]
    dsimp only
    rw [feed_more (k := 0) (by split_ifs <;> omega)]
    dsimp only
    rw [feed_last (n := n) (by omega) (by omega)]
    rfl
  · have e0 := ofNat_toNat (0xf0 + n / 262144) (by omega)
    have e1 := ofNat_toNat (0x80 + n / 4096 % 64) (by omega)
    have e2 := ofNat_toNat (0x80 + n / 64 % 64) (by omega)
    have e3 := ofNat_toNat (0x80 + n % 64) (by omega)
    simp only [List.cons_append, List.nil_append, points, e0, e1, e2, e3, hfirst]
    rw [lead, if_neg (by omega), if_neg (by omega), if_neg (by omega), if_pos (by omega)]
    dsimp only
    rw [feed_more (k := 1) (by split_ifs <;> omega)]
    dsimp only
    rw [feed_more (k := 0) (by omega)]
    dsimp only
    rw [feed_last (n := n) (by omega) (by omega)]
    rfl

theorem Decoder.points_chars (cs : List Char) :
    (idle.points (cs.flatMap String.utf8EncodeChar)).map Char.ofNat = cs := by
  induction cs with
  | nil => rfl
  | cons c cs ih => rw [List.flatMap_cons, points_char, List.map_cons, ih, Char.ofNat_toNat]

/-- A string's UTF-8 reads back well formed, but for a U+FEFF in front. -/
theorem textDecode_utf8Encode (s : JsString) : textDecode (utf8Encode s) = (dropBom (scalars s)).flatMap utf16 := by
  rw [textDecode, utf8Encode_scalars, Decoder.points_chars]

theorem toWellFormed_eq_iff (s : JsString) : (toWellFormed s = s) ↔ (isWellFormed s = true) := by
  have hunit (u : UInt16) : (if isHigh u || isLow u then 0xfffd else u) = u ↔ isHigh u = false ∧ isLow u = false := by
    split_ifs with h
    · refine ⟨fun heq => ?_, fun hu => ?_⟩
      · rw [← heq] at h
        exact absurd h (by decide)
      · rw [hu.1, hu.2] at h
        exact absurd h (by decide)
    · simpa using h
  induction s using toWellFormed.induct with
  | case1 => exact ⟨fun _ => rfl, fun _ => rfl⟩
  | case2 u =>
    rw [toWellFormed, isWellFormed, List.cons.injEq, hunit]
    simp
  | case3 u v s h ih =>
    have hp := h
    simp only [Bool.and_eq_true] at hp
    have hself : toWellFormed (u :: v :: s) = u :: v :: s ↔ toWellFormed s = s := by
      rw [toWellFormed, if_pos h, List.cons.injEq, List.cons.injEq]
      exact ⟨fun hs => hs.2.2, fun hs => ⟨rfl, rfl, hs⟩⟩
    rw [isWellFormed, if_pos hp.1, hp.2, Bool.true_and]
    exact hself.trans ih
  | case4 u v s h ih =>
    have hself : toWellFormed (u :: v :: s) = u :: v :: s ↔
        (isHigh u = false ∧ isLow u = false) ∧ isWellFormed (v :: s) = true := by
      rw [toWellFormed, if_neg h, List.cons.injEq, hunit]
      exact and_congr_right fun _ => ih
    rw [hself, isWellFormed]
    cases hhigh : isHigh u
    · simp
    · rw [hhigh, Bool.true_and, Bool.not_eq_true] at h
      simp [h]

theorem toWellFormed_length (s : JsString) : (toWellFormed s).length = s.length := by
  induction s using toWellFormed.induct with
  | case1 => rfl
  | case2 u => rfl
  | case3 u v s h ih => rw [toWellFormed, if_pos h, List.length_cons, List.length_cons, ih, List.length_cons, List.length_cons]
  | case4 u v s h ih => rw [toWellFormed, if_neg h, List.length_cons, ih, List.length_cons, List.length_cons, List.length_cons]

theorem scalars_bom (s : JsString) : scalars (0xfeff :: s) = Char.ofNat 0xfeff :: scalars s := by
  cases s with
  | nil => rfl
  | cons v s => rfl

theorem dropBom_scalars {s : JsString} (h : s.head? ≠ some 0xfeff) : dropBom (scalars s) = scalars s := by
  have hunit (u : UInt16) (hu : u ≠ 0xfeff) : ¬ (scalarUnit u).toNat = 0xfeff := by
    rw [scalarUnit_toNat]
    split_ifs with hs
    · decide
    · exact fun he => hu (UInt16.toNat_inj.mp he)
  induction s using toWellFormed.induct with
  | case1 => rfl
  | case2 u =>
    rw [scalars, dropBom, if_neg (hunit u fun he => h (congrArg some he))]
  | case3 u v s hp _ =>
    rw [scalars, if_pos hp]
    simp only [Bool.and_eq_true] at hp
    have hpoint := pair_toNat hp.1 hp.2
    have hge : 0x10000 ≤ pairPoint u v := by
      unfold pairPoint
      omega
    rw [dropBom, if_neg (by rw [hpoint]; omega)]
  | case4 u v s hp _ =>
    rw [scalars, if_neg hp, dropBom, if_neg (hunit u fun he => h (congrArg some he))]

/-- Which strings a `TextDecoder` gives back from their UTF-8. -/
theorem textDecode_eq_iff (s : JsString) :
    textDecode (utf8Encode s) = s ↔ isWellFormed s = true ∧ s.head? ≠ some 0xfeff := by
  rw [textDecode_utf8Encode]
  by_cases h : s.head? = some 0xfeff
  · obtain ⟨rest, rfl⟩ : ∃ rest, s = 0xfeff :: rest := by
      cases s with
      | nil => cases h
      | cons u rest => exact ⟨rest, by rw [Option.some.inj h]⟩
    have hshort : ((dropBom (scalars (0xfeff :: rest))).flatMap utf16).length = rest.length := by
      rw [scalars_bom, dropBom, if_pos (by decide), ← toWellFormed_scalars, toWellFormed_length]
    refine ⟨fun heq => ?_, fun ⟨_, hne⟩ => absurd h hne⟩
    rw [heq, List.length_cons] at hshort
    omega
  · rw [dropBom_scalars h, ← toWellFormed_scalars, toWellFormed_eq_iff]
    exact ⟨fun hw => ⟨hw, h⟩, fun hw => hw.1⟩

end Utf
