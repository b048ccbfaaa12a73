import SeedTransport.Lib.Json

set_option autoImplicit false

/-! The text of a JSON value, as `JSON.stringify` writes it and `JSON.parse` reads it. -/

open Utf

namespace Json

/-! Strings. -/

def hexUnit (n : Nat) : UInt16 := UInt16.ofNat (if n < 10 then 48 + n else 87 + n)

/-- `\uXXXX` -/
def escape (u : UInt16) : JsString :=
  [92, 117, hexUnit (u.toNat / 4096), hexUnit (u.toNat / 256 % 16), hexUnit (u.toNat / 16 % 16),
    hexUnit (u.toNat % 16)]

/-- The letter that stands for a unit after a backslash. -/
def shortEscapes : List (UInt16 × UInt16) :=
  [(34, 34), (92, 92), (8, 98), (9, 116), (10, 110), (12, 102), (13, 114)]

/-- A unit that is not half of a pair: a surrogate is escaped. -/
def quoteUnit (u : UInt16) : JsString :=
  match shortEscapes.find? fun e => decide (e.1 = u) with
  | some e => [92, e.2]
  | none => if u.toNat < 32 ∨ isHigh u = true ∨ isLow u = true then escape u else [u]

def quoteUnits : JsString → JsString
  | [] => []
  | [u] => quoteUnit u
  | u :: v :: s =>
    if isHigh u && isLow v then u :: v :: quoteUnits s else quoteUnit u ++ quoteUnits (v :: s)

def quote (s : JsString) : JsString := 34 :: (quoteUnits s ++ [34])

def hexValue (u : UInt16) : Option Nat :=
  let n := u.toNat
  if 48 ≤ n ∧ n ≤ 57 then some (n - 48)
  else if 97 ≤ n ∧ n ≤ 102 then some (n - 87)
  else if 65 ≤ n ∧ n ≤ 70 then some (n - 55)
  else none

def readHex (a b c d : UInt16) : Option UInt16 := do
  let a ← hexValue a
  let b ← hexValue b
  let c ← hexValue c
  let d ← hexValue d
  pure (UInt16.ofNat (a * 4096 + b * 256 + c * 16 + d))

/-- The unit a letter after a backslash stands for. -/
def unescape (e : UInt16) : Option UInt16 :=
  if e = 47 then some 47
  else (shortEscapes.find? fun p => decide (p.2 = e)).map Prod.fst

/-- What stands before the closing quote, and what after it. -/
def readString : JsString → Option (JsString × JsString)
  | [] => none
  | u :: s =>
    if u = 34 then some ([], s)
    else if u = 92 then
      match s with
      | [] => none
      | e :: s =>
        if e = 117 then
          match s with
          | a :: b :: c :: d :: s =>
            match readHex a b c d with
            | none => none
            | some x => (readString s).map fun p => (x :: p.1, p.2)
          | _ => none
        else
          match unescape e with
          | none => none
          | some x => (readString s).map fun p => (x :: p.1, p.2)
    else if u.toNat < 32 then none
    else (readString s).map fun p => (u :: p.1, p.2)

theorem hexValue_hexUnit {n : Nat} (h : n < 16) : hexValue (hexUnit n) = some n := by
  decide +revert

theorem readHex_escape (u : UInt16) : readHex (hexUnit (u.toNat / 4096))
    (hexUnit (u.toNat / 256 % 16)) (hexUnit (u.toNat / 16 % 16)) (hexUnit (u.toNat % 16)) =
      some u := by
  have hu := u.toNat_lt
  simp only [readHex, hexValue_hexUnit (show u.toNat / 4096 < 16 by omega),
    hexValue_hexUnit (show u.toNat / 256 % 16 < 16 by omega),
    hexValue_hexUnit (show u.toNat / 16 % 16 < 16 by omega),
    hexValue_hexUnit (show u.toNat % 16 < 16 by omega), Option.bind_eq_bind, Option.bind_some,
    Option.pure_def, Option.some.injEq]
  have hback : u.toNat / 4096 * 4096 + u.toNat / 256 % 16 * 256 + u.toNat / 16 % 16 * 16 +
      u.toNat % 16 = u.toNat := by omega
  rw [hback]
  simp

theorem readString_plain {u : UInt16} (h34 : u ≠ 34) (h92 : u ≠ 92) (h32 : ¬ u.toNat < 32)
    (s : JsString) : readString (u :: s) = (readString s).map fun p => (u :: p.1, p.2) := by
  rw [readString.eq_def]
  simp only [h34, h92, h32, if_false]

/-- What `quoteUnit` wrote reads back as the unit. -/
theorem readString_quoteUnit (u : UInt16) (s : JsString) :
    readString (quoteUnit u ++ s) = (readString s).map fun p => (u :: p.1, p.2) := by
  unfold quoteUnit
  split
  · next e he =>
    have hmem := List.mem_of_find?_eq_some he
    have heq : e.1 = u := by simpa using List.find?_some he
    subst heq
    have hun : ∀ p ∈ shortEscapes, p.2 ≠ 117 ∧ unescape p.2 = some p.1 := by
      simp [shortEscapes, unescape]
    obtain ⟨h117, hback⟩ := hun e hmem
    simp only [List.cons_append, List.nil_append]
    rw [readString.eq_def]
    simp only [h117, hback, if_false, if_true, show (92 : UInt16) ≠ 34 by decide]
  · next hnone =>
    split
    · simp only [escape, List.cons_append, List.nil_append]
      rw [readString.eq_def]
      simp only [readHex_escape, if_false, if_true, show (92 : UInt16) ≠ 34 by decide]
    · next hraw =>
      simp only [not_or] at hraw
      rw [List.find?_eq_none] at hnone
      have hne : ∀ e ∈ shortEscapes, e.1 ≠ u := fun e he => by simpa using hnone e he
      have h34 : u ≠ 34 := fun h => hne (34, 34) (by decide) h.symm
      have h92 : u ≠ 92 := fun h => hne (92, 92) (by decide) h.symm
      exact readString_plain h34 h92 hraw.1 s

theorem readString_quoteUnits (s rest : JsString) :
    readString (quoteUnits s ++ 34 :: rest) = some (s, rest) := by
  have hend : readString (34 :: rest) = some ([], rest) := by
    rw [readString.eq_def]
    rfl
  induction s using quoteUnits.induct with
  | case1 => exact hend
  | case2 u =>
    rw [quoteUnits, readString_quoteUnit, hend]
    rfl
  | case3 u v s hpair ih =>
    have hp := hpair
    simp only [Bool.and_eq_true] at hp
    have hu := (isHigh_iff u).1 hp.1
    have hv := (isLow_iff v).1 hp.2
    have hplain : ∀ x : UInt16, 0xd800 ≤ x.toNat → x ≠ 34 ∧ x ≠ 92 ∧ ¬ x.toNat < 32 := by
      intro x hx
      refine ⟨?_, ?_, by omega⟩ <;>
      · rintro rfl
        revert hx
        decide
    obtain ⟨u1, u2, u3⟩ := hplain u hu.1
    obtain ⟨v1, v2, v3⟩ := hplain v (by omega)
    rw [quoteUnits, if_pos hpair, List.cons_append, List.cons_append, readString_plain u1 u2 u3,
      readString_plain v1 v2 v3, ih]
    rfl
  | case4 u v s hpair ih =>
    rw [quoteUnits, if_neg hpair, List.append_assoc, readString_quoteUnit, ih]
    rfl

/-! Numbers. -/

def isDigit (u : UInt16) : Bool := decide (48 ≤ u.toNat ∧ u.toNat ≤ 57)

def natText (n : Nat) : JsString := (Nat.toDigits 10 n).map fun c => UInt16.ofNat c.toNat

def digitsValue (ds : JsString) : Nat := ds.foldl (fun n u => 10 * n + (u.toNat - 48)) 0

def intText (n : Int) : JsString :=
  if n < 0 then 45 :: natText n.natAbs else natText n.natAbs

/-- The digits in front. -/
def spanDigits (s : JsString) : JsString × JsString := (s.takeWhile isDigit, s.dropWhile isDigit)

/-- `.` and its digits, as their value and how many they are. -/
def readFraction (s : JsString) : Option ((Nat × Nat) × JsString) :=
  match s with
  | 46 :: s =>
    let p := spanDigits s
    if p.1 = [] then none else some ((digitsValue p.1, p.1.length), p.2)
  | s => some ((0, 0), s)

/-- The power of ten after `e`. -/
def readExponent (s : JsString) : Option (Int × JsString) :=
  match s with
  | [] => some (0, [])
  | u :: s' =>
    if u = 101 ∨ u = 69 then
      let signed := s'.headD 0 = 45 ∨ s'.headD 0 = 43
      let p := spanDigits (if signed then s'.tail else s')
      let n : Int := digitsValue p.1
      if p.1 = [] then none else some (if s'.headD 0 = 45 then -n else n, p.2)
    else some (0, s)

/-- A number without its sign. -/
def readMagnitude (s : JsString) : Option (ℚ × JsString) :=
  let p := spanDigits s
  if p.1 = [] ∨ p.1.headD 0 = 48 ∧ p.1.length ≠ 1 then none
  else
    match readFraction p.2 with
    | none => none
    | some ((frac, places), s) =>
      (readExponent s).map fun e =>
        (((digitsValue p.1 : ℚ) + (frac : ℚ) / 10 ^ places) * (10 : ℚ) ^ e.1, e.2)

def readNumber (s : JsString) : Option (ℚ × JsString) :=
  if s.headD 0 = 45 then (readMagnitude s.tail).map fun p => (-p.1, p.2) else readMagnitude s

/-- What may follow a number: no more of one. -/
def Ends (rest : JsString) : Prop :=
  ∀ u ∈ rest.head?, isDigit u = false ∧ u ≠ 46 ∧ u ≠ 101 ∧ u ≠ 69

theorem natText_small {n : Nat} (h : n < 10) : natText n = [UInt16.ofNat (48 + n)] := by
  decide +revert

theorem natText_step {n : Nat} (h : 10 ≤ n) :
    natText n = natText (n / 10) ++ [UInt16.ofNat (48 + n % 10)] := by
  have hd : (Nat.toDigits 10 (n % 10)).map (fun c => UInt16.ofNat c.toNat) =
      [UInt16.ofNat (48 + n % 10)] := natText_small (Nat.mod_lt n (by omega))
  rw [Nat.toDigits_of_lt_base (Nat.mod_lt n (by omega))] at hd
  rw [natText, Nat.toDigits_of_base_le (by omega) h, List.map_append, hd]
  rfl

theorem digit_unit {d : Nat} (h : d < 10) :
    isDigit (UInt16.ofNat (48 + d)) = true ∧ (UInt16.ofNat (48 + d)).toNat = 48 + d := by
  decide +revert

theorem natText_digits (n : Nat) : ∀ u ∈ natText n, isDigit u = true := by
  induction n using Nat.strong_induction_on with
  | _ n ih =>
    by_cases h : n < 10
    · rw [natText_small h]
      simpa using (digit_unit h).1
    · rw [natText_step (by omega)]
      intro u hu
      obtain hu | hu := List.mem_append.1 hu
      · exact ih (n / 10) (by omega) u hu
      · rw [List.mem_singleton.1 hu]
        exact (digit_unit (Nat.mod_lt n (by omega))).1

theorem natText_value (n : Nat) : digitsValue (natText n) = n := by
  induction n using Nat.strong_induction_on with
  | _ n ih =>
    by_cases h : n < 10
    · rw [natText_small h]
      simp only [digitsValue, List.foldl_cons, List.foldl_nil, (digit_unit h).2]
      omega
    · have hd := (digit_unit (Nat.mod_lt n (show 0 < 10 by omega))).2
      have hrest := ih (n / 10) (by omega)
      rw [natText_step (by omega), digitsValue, List.foldl_append]
      rw [digitsValue] at hrest
      simp only [hrest, List.foldl_cons, List.foldl_nil, hd]
      omega

/-- Only zero is written with a zero in front. -/
theorem natText_head (n : Nat) : ∃ u us, natText n = u :: us ∧ (u = 48 → us = []) := by
  induction n using Nat.strong_induction_on with
  | _ n ih =>
    by_cases h : n < 10
    · exact ⟨_, _, natText_small h, fun _ => rfl⟩
    · obtain ⟨u, us, he, h0⟩ := ih (n / 10) (by omega)
      refine ⟨u, us ++ [UInt16.ofNat (48 + n % 10)], by rw [natText_step (by omega), he]; rfl, ?_⟩
      intro hu
      have hzero : n / 10 = 0 := by
        have hv := natText_value (n / 10)
        rw [he, h0 hu, hu] at hv
        exact hv.symm
      omega

theorem spanDigits_natText (n : Nat) {rest : JsString} (h : Ends rest) :
    spanDigits (natText n ++ rest) = (natText n, rest) := by
  have hall := natText_digits n
  have htake : rest.takeWhile isDigit = [] := by
    cases rest with
    | nil => rfl
    | cons u us => simp [(h u rfl).1]
  have hdrop : rest.dropWhile isDigit = rest := by
    cases rest with
    | nil => rfl
    | cons u us => simp [(h u rfl).1]
  rw [spanDigits, List.takeWhile_append_of_pos hall, List.dropWhile_append_of_pos hall, htake,
    hdrop, List.append_nil]

theorem readMagnitude_natText (n : Nat) {rest : JsString} (h : Ends rest) :
    readMagnitude (natText n ++ rest) = some ((n : ℚ), rest) := by
  obtain ⟨u, us, he, h0⟩ := natText_head n
  have hfrac : readFraction rest = some ((0, 0), rest) := by
    unfold readFraction
    split
    · exact absurd rfl (h 46 rfl).2.1
    · rfl
  have hexp : readExponent rest = some (0, rest) := by
    cases rest with
    | nil => rfl
    | cons v vs =>
      obtain ⟨-, -, h101, h69⟩ := h v rfl
      simp [readExponent, h101, h69]
  have hlead : ¬ (natText n = [] ∨ (natText n).headD 0 = 48 ∧ (natText n).length ≠ 1) := by
    rw [he]
    rintro (hnil | ⟨h48, hlen⟩)
    · cases hnil
    · rw [h0 h48] at hlen
      exact hlen rfl
  simp only [readMagnitude, spanDigits_natText n h, hlead, if_false, hfrac, hexp, natText_value,
    Option.map_some]
  simp

theorem readNumber_intText (n : Int) {rest : JsString} (h : Ends rest) :
    readNumber (intText n ++ rest) = some ((n : ℚ), rest) := by
  have hmag := readMagnitude_natText n.natAbs h
  unfold intText
  split
  · next hneg =>
    have hcast : -((n.natAbs : ℚ)) = (n : ℚ) := by
      have habs : (n.natAbs : Int) = -n := by omega
      rw [← Int.cast_natCast, habs]
      simp
    rw [List.cons_append, readNumber, List.headD_cons, if_pos rfl, List.tail_cons, hmag,
      Option.map_some, hcast]
  · next hpos =>
    obtain ⟨u, us, he, -⟩ := natText_head n.natAbs
    have hu : u ≠ 45 := by
      rintro rfl
      have hd := natText_digits n.natAbs 45 (by rw [he]; exact List.mem_cons_self)
      exact absurd hd (by decide)
    have hcast : ((n.natAbs : ℚ)) = (n : ℚ) := by
      have habs : (n.natAbs : Int) = n := by omega
      rw [← Int.cast_natCast, habs]
    have hhead : ¬ (natText n.natAbs ++ rest).headD 0 = 45 := by
      rw [he]
      exact hu
    rw [readNumber, if_neg hhead, hmag, hcast]

/-! Values. -/

mutual

/-- The text of a value, none where it holds a number other than a safe integer, whose text is
left out here. -/
def stringify : Json → Option JsString
  | .null => some (js "null")
  | .bool true => some (js "true")
  | .bool false => some (js "false")
  | .num q => if q.den = 1 ∧ q.num.natAbs ≤ 2 ^ 53 - 1 then some (intText q.num) else none
  | .str s => some (quote s)
  | .arr items => (stringifyItems items).map fun t => 91 :: t
  | .obj fields => (stringifyFields fields).map fun t => 123 :: t

/-- The items of an array, and the bracket that closes it. -/
def stringifyItems : List Json → Option JsString
  | [] => some [93]
  | [v] => (stringify v).map fun t => t ++ [93]
  | v :: w :: vs =>
    match stringify v, stringifyItems (w :: vs) with
    | some t, some ts => some (t ++ 44 :: ts)
    | _, _ => none

/-- The fields of an object, and the brace that closes it. -/
def stringifyFields : List (JsString × Json) → Option JsString
  | [] => some [125]
  | [(k, v)] => (stringify v).map fun t => quote k ++ 58 :: (t ++ [125])
  | (k, v) :: f :: fs =>
    match stringify v, stringifyFields (f :: fs) with
    | some t, some ts => some (quote k ++ 58 :: (t ++ 44 :: ts))
    | _, _ => none

end

def isSpace (u : UInt16) : Bool := decide (u = 32 ∨ u = 9 ∨ u = 10 ∨ u = 13)

def skip (s : JsString) : JsString := s.dropWhile isSpace

/-- The rest of `s` after the unit `u`, with blanks around it. -/
def expect (u : UInt16) (s : JsString) : Option JsString :=
  match skip s with
  | [] => none
  | v :: s => if v = u then some (skip s) else none

def literal (word : JsString) (v : Json) (s : JsString) : Option (Json × JsString) :=
  if s.take word.length = word then some (v, s.drop word.length) else none

mutual

/-- A value in front, no blanks before it, with at most `fuel` values and separators in it. -/
def readValue : Nat → JsString → Option (Json × JsString)
  | 0, _ => none
  | _, [] => none
  | fuel + 1, u :: s =>
    if u = 34 then (readString s).map fun p => (.str p.1, p.2)
    else if u = 91 then
      match expect 93 s with
      | some rest => some (.arr [], rest)
      | none => (readItems fuel (skip s)).map fun p => (.arr p.1, p.2)
    else if u = 123 then
      match expect 125 s with
      | some rest => some (.obj [], rest)
      | none => (readFields fuel (skip s)).map fun p => (.obj p.1, p.2)
    else if u = 110 then literal (js "null") .null (u :: s)
    else if u = 116 then literal (js "true") (.bool true) (u :: s)
    else if u = 102 then literal (js "false") (.bool false) (u :: s)
    else (readNumber (u :: s)).map fun p => (.num p.1, p.2)

/-- The items up to the bracket. -/
def readItems : Nat → JsString → Option (List Json × JsString)
  | 0, _ => none
  | fuel + 1, s =>
    match readValue fuel s with
    | none => none
    | some (v, s) =>
      match expect 93 s with
      | some rest => some ([v], rest)
      | none =>
        match expect 44 s with
        | none => none
        | some rest => (readItems fuel rest).map fun p => (v :: p.1, p.2)

/-- The fields up to the brace. -/
def readFields : Nat → JsString → Option (List (JsString × Json) × JsString)
  | 0, _ => none
  | fuel + 1, s =>
    match if s.headD 0 = 34 then readString s.tail else none with
    | none => none
    | some (k, s) =>
      match expect 58 s with
      | none => none
      | some s =>
        match readValue fuel s with
        | none => none
        | some (v, s) =>
          match expect 125 s with
          | some rest => some ([(k, v)], rest)
          | none =>
            match expect 44 s with
            | none => none
            | some rest => (readFields fuel rest).map fun p => ((k, v) :: p.1, p.2)

end

/-- The value a whole text is. -/
def parse (t : JsString) : Option Json :=
  match readValue t.length (skip t) with
  | some (v, rest) => if skip rest = [] then some v else none
  | none => none

/-! What is written reads back. -/

/-- What stands after a value in a text: a separator, a closing bracket or nothing. -/
def Follows (rest : JsString) : Prop := ∀ u ∈ rest.head?, u = 44 ∨ u = 93 ∨ u = 125

theorem follows_cons {u : UInt16} (h : u = 44 ∨ u = 93 ∨ u = 125) (s : JsString) :
    Follows (u :: s) := by
  rintro v hv
  cases hv
  exact h

theorem Follows.ends {rest : JsString} (h : Follows rest) : Ends rest := by
  intro u hu
  obtain rfl | rfl | rfl := h u hu <;> decide

theorem skip_cons {u : UInt16} (h : isSpace u = false) (s : JsString) : skip (u :: s) = u :: s := by
  simp [skip, h]

theorem Follows.skip {rest : JsString} (h : Follows rest) : skip rest = rest := by
  cases rest with
  | nil => rfl
  | cons u s =>
    apply skip_cons
    obtain rfl | rfl | rfl := h u rfl <;> decide

theorem expect_cons {u : UInt16} (h : isSpace u = false) (s : JsString) :
    expect u (u :: s) = some (skip s) := by
  simp [expect, skip_cons h]

theorem expect_other {u v : UInt16} (h : isSpace v = false) (hne : v ≠ u) (s : JsString) :
    expect u (v :: s) = none := by
  simp [expect, skip_cons h, hne]

/-- How the text of a value starts. -/
structure Starts (t : JsString) (u : UInt16) (us : JsString) : Prop where
  eq : t = u :: us
  space : isSpace u = false
  bracket : u ≠ 93

theorem digit_starts {u : UInt16} (h : isDigit u = true) : isSpace u = false ∧ u ≠ 93 ∧
    u ≠ 34 ∧ u ≠ 91 ∧ u ≠ 123 ∧ u ≠ 110 ∧ u ≠ 116 ∧ u ≠ 102 := by
  have hne : ∀ v : UInt16, isDigit v = false → u ≠ v := by
    rintro v hv rfl
    rw [h] at hv
    cases hv
  refine ⟨?_, hne _ (by decide), hne _ (by decide), hne _ (by decide), hne _ (by decide),
    hne _ (by decide), hne _ (by decide), hne _ (by decide)⟩
  simp [isSpace, hne 32 (by decide), hne 9 (by decide), hne 10 (by decide), hne 13 (by decide)]

theorem intText_starts (n : Int) : ∃ u us, intText n = u :: us ∧ isSpace u = false ∧ u ≠ 93 ∧
    u ≠ 34 ∧ u ≠ 91 ∧ u ≠ 123 ∧ u ≠ 110 ∧ u ≠ 116 ∧ u ≠ 102 := by
  unfold intText
  split
  · exact ⟨45, _, rfl, by decide⟩
  · obtain ⟨u, us, he, -⟩ := natText_head n.natAbs
    exact ⟨u, us, he, digit_starts (natText_digits n.natAbs u (by rw [he]; exact List.mem_cons_self))⟩

theorem stringify_starts {v : Json} {t : JsString} (h : stringify v = some t) :
    ∃ u us, Starts t u us := by
  match v with
  | .null | .bool true | .bool false =>
    simp only [stringify, Option.some.injEq] at h
    subst h
    exact ⟨_, _, rfl, by decide, by decide⟩
  | .num q =>
    simp only [stringify] at h
    split at h
    · cases h
      obtain ⟨u, us, he, hs, hb, -⟩ := intText_starts q.num
      exact ⟨u, us, he, hs, hb⟩
    · cases h
  | .str s =>
    cases h
    exact ⟨_, _, rfl, by decide, by decide⟩
  | .arr items | .obj fields =>
    simp only [stringify] at h
    obtain ⟨ts, -, rfl⟩ := Option.map_eq_some_iff.1 h
    exact ⟨_, _, rfl, by decide, by decide⟩

theorem Starts.skip {t us : JsString} {u : UInt16} (h : Starts t u us) (rest : JsString) :
    Json.skip (t ++ rest) = t ++ rest := by
  rw [h.eq]
  exact skip_cons h.space _

/-- The reader with this much fuel takes the text of any value that is no longer. -/
structure Reads (fuel : Nat) : Prop where
  value : ∀ v t rest, stringify v = some t → t.length ≤ fuel → Follows rest →
    readValue fuel (t ++ rest) = some (v, rest)
  items : ∀ v vs ts rest, stringifyItems (v :: vs) = some ts → ts.length ≤ fuel → Follows rest →
    readItems fuel (ts ++ rest) = some (v :: vs, rest)
  fields : ∀ f fs ts rest, stringifyFields (f :: fs) = some ts → ts.length ≤ fuel →
    Follows rest → readFields fuel (ts ++ rest) = some (f :: fs, rest)

theorem stringifyItems_cons {v : Json} {vs : List Json} {ts : JsString}
    (h : stringifyItems (v :: vs) = some ts) : ∃ t, stringify v = some t ∧
      (vs = [] ∧ ts = t ++ [93] ∨
        ∃ w ws us, vs = w :: ws ∧ stringifyItems vs = some us ∧ ts = t ++ 44 :: us) := by
  match vs with
  | [] =>
    simp only [stringifyItems] at h
    obtain ⟨t, ht, rfl⟩ := Option.map_eq_some_iff.1 h
    exact ⟨t, ht, .inl ⟨rfl, rfl⟩⟩
  | w :: ws =>
    simp only [stringifyItems] at h
    split at h
    · next t us ht hus =>
      cases h
      exact ⟨t, ht, .inr ⟨w, ws, us, rfl, hus, rfl⟩⟩
    · cases h

theorem stringifyFields_cons {k : JsString} {v : Json} {fs : List (JsString × Json)}
    {ts : JsString} (h : stringifyFields ((k, v) :: fs) = some ts) :
    ∃ t, stringify v = some t ∧
      (fs = [] ∧ ts = quote k ++ 58 :: (t ++ [125]) ∨
        ∃ g gs us, fs = g :: gs ∧ stringifyFields fs = some us ∧
          ts = quote k ++ 58 :: (t ++ 44 :: us)) := by
  match fs with
  | [] =>
    simp only [stringifyFields] at h
    obtain ⟨t, ht, rfl⟩ := Option.map_eq_some_iff.1 h
    exact ⟨t, ht, .inl ⟨rfl, rfl⟩⟩
  | g :: gs =>
    simp only [stringifyFields] at h
    split at h
    · next t us ht hus =>
      cases h
      exact ⟨t, ht, .inr ⟨g, gs, us, rfl, hus, rfl⟩⟩
    · cases h

theorem items_starts {v : Json} {vs : List Json} {ts : JsString}
    (h : stringifyItems (v :: vs) = some ts) : ∃ u us, Starts ts u us := by
  obtain ⟨t, ht, hts⟩ := stringifyItems_cons h
  obtain ⟨u, us, he, hs, hb⟩ := stringify_starts ht
  obtain ⟨-, rfl⟩ | ⟨-, -, -, -, -, rfl⟩ := hts
  · exact ⟨u, us ++ [93], by rw [he]; rfl, hs, hb⟩
  · exact ⟨u, _, by rw [he]; rfl, hs, hb⟩

theorem fields_starts {f : JsString × Json} {fs : List (JsString × Json)} {ts : JsString}
    (h : stringifyFields (f :: fs) = some ts) : ∃ us, ts = 34 :: us := by
  obtain ⟨t, ht, ⟨-, rfl⟩ | ⟨-, -, -, -, -, rfl⟩⟩ := stringifyFields_cons h
  · exact ⟨_, rfl⟩
  · exact ⟨_, rfl⟩

theorem Reads.next_items {fuel : Nat} (h : Reads fuel) (v : Json) (vs : List Json)
    (ts rest : JsString) (hts : stringifyItems (v :: vs) = some ts) (hlen : ts.length ≤ fuel + 1)
    (hrest : Follows rest) : readItems (fuel + 1) (ts ++ rest) = some (v :: vs, rest) := by
  obtain ⟨t, ht, ⟨rfl, rfl⟩ | ⟨w, ws, us, rfl, hus, rfl⟩⟩ := stringifyItems_cons hts
  · rw [List.length_append, List.length_singleton] at hlen
    have hv := h.value v t (93 :: rest) ht (by omega) (follows_cons (by decide) rest)
    have hclose : expect 93 (93 :: rest) = some rest := by
      rw [expect_cons (by decide), hrest.skip]
    rw [List.append_assoc, List.singleton_append]
    simp only [readItems, hv, hclose]
  · rw [List.length_append, List.length_cons] at hlen
    have hv := h.value v t (44 :: (us ++ rest)) ht (by omega) (follows_cons (by decide) _)
    have hmore := h.items w ws us rest hus (by omega) hrest
    obtain ⟨u, us', hstarts⟩ := items_starts hus
    have hopen : expect 93 (44 :: (us ++ rest)) = none := expect_other (by decide) (by decide) _
    have hcomma : expect 44 (44 :: (us ++ rest)) = some (us ++ rest) := by
      rw [expect_cons (by decide), hstarts.skip]
    rw [List.append_assoc, List.cons_append]
    simp only [readItems, hv, hopen, hcomma, hmore, Option.map_some]

theorem readString_quote (k rest : JsString) :
    readString ((quote k ++ rest).tail) = some (k, rest) := by
  have h := readString_quoteUnits k rest
  simpa [quote] using h

theorem Reads.next_fields {fuel : Nat} (h : Reads fuel) (f : JsString × Json)
    (fs : List (JsString × Json)) (ts rest : JsString)
    (hts : stringifyFields (f :: fs) = some ts) (hlen : ts.length ≤ fuel + 1)
    (hrest : Follows rest) : readFields (fuel + 1) (ts ++ rest) = some (f :: fs, rest) := by
  obtain ⟨k, v⟩ := f
  have hkey : ∀ s : JsString, (if (quote k ++ s).headD 0 = 34 then
      readString (quote k ++ s).tail else none) = some (k, s) := fun s => by
    rw [readString_quote]
    rfl
  have hcolon : ∀ {t : JsString} {u : UInt16} {us : JsString}, Starts t u us → ∀ s,
      expect 58 (58 :: (t ++ s)) = some (t ++ s) := fun hs s => by
    rw [expect_cons (by decide), hs.skip]
  obtain ⟨t, ht, ⟨rfl, rfl⟩ | ⟨g, gs, us, rfl, hus, rfl⟩⟩ := stringifyFields_cons hts
  · obtain ⟨u, us, hstarts⟩ := stringify_starts ht
    simp only [List.length_append, List.length_cons] at hlen
    have hv := h.value v t (125 :: rest) ht (by omega) (follows_cons (by decide) rest)
    have hclose : expect 125 (125 :: rest) = some rest := by
      rw [expect_cons (by decide), hrest.skip]
    simp only [List.append_assoc, List.cons_append, List.nil_append, readFields, hkey,
      hcolon hstarts, hv, hclose]
  · obtain ⟨u, us', hstarts⟩ := stringify_starts ht
    simp only [List.length_append, List.length_cons] at hlen
    have hv := h.value v t (44 :: (us ++ rest)) ht (by omega) (follows_cons (by decide) _)
    have hmore := h.fields g gs us rest hus (by omega) hrest
    obtain ⟨us'', rfl⟩ := fields_starts hus
    have hopen : expect 125 (44 :: (34 :: us'' ++ rest)) = none :=
      expect_other (by decide) (by decide) _
    have hcomma : expect 44 (44 :: (34 :: us'' ++ rest)) = some (34 :: us'' ++ rest) := by
      rw [expect_cons (by decide), List.cons_append, skip_cons (by decide)]
    simp only [List.append_assoc, List.cons_append] at hv hmore hopen hcomma
    simp only [List.append_assoc, List.cons_append, readFields, hkey, hcolon hstarts, hv, hopen,
      hcomma, hmore, Option.map_some]

theorem Reads.next_value {fuel : Nat} (h : Reads fuel) (v : Json) (t rest : JsString)
    (ht : stringify v = some t) (hlen : t.length ≤ fuel + 1) (hrest : Follows rest) :
    readValue (fuel + 1) (t ++ rest) = some (v, rest) := by
  match v with
  | .null | .bool true | .bool false =>
    simp only [stringify, Option.some.injEq] at ht
    subst ht
    rfl
  | .num q =>
    simp only [stringify] at ht
    split at ht
    · next hq =>
      cases ht
      have hnum := readNumber_intText q.num hrest.ends
      have hback : ((q.num : Int) : ℚ) = q := (Rat.den_eq_one_iff q).1 hq.1
      obtain ⟨u, us, he, -, -, h1, h2, h3, h4, h5, h6⟩ := intText_starts q.num
      rw [he, List.cons_append] at hnum ⊢
      simp only [readValue, h1, h2, h3, h4, h5, h6, if_false, hnum, Option.map_some, hback]
    · cases ht
  | .str s =>
    cases ht
    have hs := readString_quote s rest
    simp only [quote, List.cons_append, List.tail_cons] at hs ⊢
    simp only [readValue, hs, if_true, Option.map_some]
  | .arr [] =>
    cases ht
    have hclose : expect 93 (93 :: rest) = some rest := by
      rw [expect_cons (by decide), hrest.skip]
    simp [readValue, hclose]
  | .arr (w :: ws) =>
    simp only [stringify] at ht
    obtain ⟨ts, hts, rfl⟩ := Option.map_eq_some_iff.1 ht
    rw [List.length_cons] at hlen
    obtain ⟨u, us, hstarts⟩ := items_starts hts
    have hopen : expect 93 (ts ++ rest) = none := by
      rw [hstarts.eq]
      exact expect_other hstarts.space hstarts.bracket _
    have hitems := h.items w ws ts rest hts (by omega) hrest
    simp [readValue, hopen, hstarts.skip, hitems]
  | .obj [] =>
    cases ht
    have hclose : expect 125 (125 :: rest) = some rest := by
      rw [expect_cons (by decide), hrest.skip]
    simp [readValue, hclose]
  | .obj (f :: fs) =>
    simp only [stringify] at ht
    obtain ⟨ts, hts, rfl⟩ := Option.map_eq_some_iff.1 ht
    rw [List.length_cons] at hlen
    obtain ⟨us, rfl⟩ := fields_starts hts
    have hopen : expect 125 (34 :: us ++ rest) = none := expect_other (by decide) (by decide) _
    have hskip : Json.skip (34 :: us ++ rest) = 34 :: us ++ rest := skip_cons (by decide) _
    have hfields := h.fields f fs (34 :: us) rest hts (by omega) hrest
    simp only [List.cons_append] at hopen hskip hfields
    simp [readValue, hopen, hskip, hfields]

theorem reads (fuel : Nat) : Reads fuel := by
  induction fuel with
  | zero =>
    refine ⟨fun v t rest ht hlen _ => ?_, fun v vs ts rest ht hlen _ => ?_,
      fun f fs ts rest ht hlen _ => ?_⟩
    · obtain ⟨u, us, hs⟩ := stringify_starts ht
      simp [hs.eq] at hlen
    · obtain ⟨u, us, hs⟩ := items_starts ht
      simp [hs.eq] at hlen
    · obtain ⟨us, rfl⟩ := fields_starts ht
      simp at hlen
  | succ fuel ih => exact ⟨ih.next_value, ih.next_items, ih.next_fields⟩

/-- A value comes back from its text. -/
theorem parse_stringify {v : Json} {t : JsString} (h : stringify v = some t) :
    parse t = some v := by
  obtain ⟨u, us, hs⟩ := stringify_starts h
  have hskip := hs.skip []
  have hv := (reads t.length).value v t [] h le_rfl (by simp [Follows])
  rw [List.append_nil] at hskip hv
  simp only [parse, hskip, hv, if_true]
  rfl

theorem stringifyItems_some {vs : List Json} (h : ∀ v ∈ vs, ∃ t, stringify v = some t) :
    ∃ ts, stringifyItems vs = some ts := by
  induction vs with
  | nil => exact ⟨_, rfl⟩
  | cons v vs ih =>
    obtain ⟨t, ht⟩ := h v List.mem_cons_self
    obtain ⟨ts, hts⟩ := ih fun w hw => h w (List.mem_cons_of_mem _ hw)
    cases vs with
    | nil => exact ⟨t ++ [93], by simp [stringifyItems, ht]⟩
    | cons w ws => exact ⟨t ++ 44 :: ts, by simp [stringifyItems, ht, hts]⟩

theorem stringifyFields_some {fs : List (JsString × Json)}
    (h : ∀ f ∈ fs, ∃ t, stringify f.2 = some t) : ∃ ts, stringifyFields fs = some ts := by
  induction fs with
  | nil => exact ⟨_, rfl⟩
  | cons f fs ih =>
    obtain ⟨k, v⟩ := f
    obtain ⟨t, ht⟩ := h (k, v) List.mem_cons_self
    obtain ⟨ts, hts⟩ := ih fun g hg => h g (List.mem_cons_of_mem _ hg)
    cases fs with
    | nil => exact ⟨quote k ++ 58 :: (t ++ [125]), by simp [stringifyFields, ht]⟩
    | cons g gs => exact ⟨quote k ++ 58 :: (t ++ 44 :: ts), by simp [stringifyFields, ht, hts]⟩

theorem stringify_nat {n : Nat} (h : n ≤ 2 ^ 53 - 1) :
    ∃ t, stringify (.num (n : ℚ)) = some t := by
  refine ⟨intText n, ?_⟩
  simp only [stringify, Rat.den_natCast, Rat.num_natCast, Int.natAbs_natCast, h, and_self, if_true]

theorem safeNat?_nat {n : Nat} (h : n ≤ 2 ^ 53 - 1) : safeNat? (.num (n : ℚ)) = some n := by
  have hle : (n : Int) ≤ 2 ^ 53 - 1 := by omega
  have hpos : (0 : Int) ≤ n := by omega
  simp only [safeNat?, Rat.den_natCast, Rat.num_natCast, hle, hpos, and_self, if_true,
    Int.toNat_natCast]

theorem safeNat?_le {v : Json} {n : Nat} (h : v.safeNat? = some n) : n ≤ 2 ^ 53 - 1 := by
  unfold safeNat? at h
  split at h
  · split at h
    · next q hq =>
      cases h
      have hle := hq.2.2
      omega
    · cases h
  · cases h

/-! `JSON.stringify` writes well-formed text. -/

theorem wellFormed_plain {u : UInt16} (hh : isHigh u = false) (hl : isLow u = false) (s : JsString) :
    isWellFormed (u :: s) = isWellFormed s := by
  cases s with
  | nil => simp [isWellFormed, hh, hl]
  | cons v s => simp [isWellFormed, hh, hl]

theorem wellFormed_pair {u v : UInt16} (hu : isHigh u = true) (hv : isLow v = true) (s : JsString) :
    isWellFormed (u :: v :: s) = isWellFormed s := by
  simp [isWellFormed, hu, hv]

theorem wellFormed_append {a b : JsString} (ha : isWellFormed a = true) (hb : isWellFormed b = true) :
    isWellFormed (a ++ b) = true := by
  induction a using isWellFormed.induct with
  | case1 => exact hb
  | case2 u =>
    simp only [isWellFormed, Bool.and_eq_true, Bool.not_eq_true'] at ha
    rw [List.singleton_append, wellFormed_plain ha.1 ha.2]
    exact hb
  | case3 u v s hu ih =>
    simp only [isWellFormed, hu, if_true, Bool.and_eq_true] at ha
    rw [List.cons_append, List.cons_append, wellFormed_pair hu ha.1]
    exact ih ha.2
  | case4 u v s hu ih =>
    simp only [isWellFormed, hu, if_false, Bool.and_eq_true, Bool.not_eq_true', Bool.false_eq_true] at ha
    rw [List.cons_append, wellFormed_plain (Bool.eq_false_of_not_eq_true hu) ha.1]
    exact ih ha.2

/-- A text with no unit of a pair is well formed. -/
theorem wellFormed_units {s : JsString} (h : ∀ u ∈ s, u.toNat < 0xd800) : isWellFormed s = true := by
  induction s with
  | nil => rfl
  | cons u s ih =>
    have hu := h u List.mem_cons_self
    have hh : isHigh u = false := decide_eq_false (by omega)
    have hl : isLow u = false := decide_eq_false (by omega)
    rw [wellFormed_plain hh hl]
    exact ih fun v hv => h v (List.mem_cons_of_mem _ hv)

theorem hexUnit_small {n : Nat} (h : n < 16) : (hexUnit n).toNat < 0xd800 := by
  unfold hexUnit
  rw [UInt16.toNat_ofNat']
  split <;> omega

theorem quoteUnit_wellFormed (u : UInt16) : isWellFormed (quoteUnit u) = true := by
  unfold quoteUnit
  split
  · next e he =>
    have hmem := List.mem_of_find?_eq_some he
    have hall : ∀ e ∈ shortEscapes, isWellFormed [92, e.2] = true := by
      simp [shortEscapes, isWellFormed, isHigh, isLow]
    exact hall e hmem
  · split
    · refine wellFormed_units fun v hv => ?_
      have hu := u.toNat_lt
      simp only [escape, List.mem_cons, List.not_mem_nil, or_false] at hv
      obtain rfl | rfl | rfl | rfl | rfl | rfl := hv
      · decide
      · decide
      · exact hexUnit_small (by omega)
      · exact hexUnit_small (by omega)
      · exact hexUnit_small (by omega)
      · exact hexUnit_small (by omega)
    · next h =>
      rw [not_or, not_or] at h
      rw [wellFormed_plain (Bool.eq_false_of_not_eq_true h.2.1) (Bool.eq_false_of_not_eq_true h.2.2)]
      rfl

theorem quoteUnits_wellFormed (s : JsString) : isWellFormed (quoteUnits s) = true := by
  induction s using quoteUnits.induct with
  | case1 => rfl
  | case2 u => exact quoteUnit_wellFormed u
  | case3 u v s h ih =>
    obtain ⟨hu, hv⟩ := Bool.and_eq_true_iff.mp h
    rw [quoteUnits, if_pos h, wellFormed_pair hu hv]
    exact ih
  | case4 u v s h ih =>
    rw [quoteUnits, if_neg h]
    exact wellFormed_append (quoteUnit_wellFormed u) ih

theorem quote_wellFormed (s : JsString) : isWellFormed (quote s) = true := by
  rw [quote, wellFormed_plain (by decide) (by decide)]
  exact wellFormed_append (quoteUnits_wellFormed s) (by decide)

theorem intText_wellFormed (n : Int) : isWellFormed (intText n) = true := by
  have hdigits : ∀ u ∈ natText n.natAbs, u.toNat < 0xd800 := by
    intro u hu
    have h := of_decide_eq_true (natText_digits _ u hu)
    omega
  unfold intText
  split
  · rw [wellFormed_plain (by decide) (by decide)]
    exact wellFormed_units hdigits
  · exact wellFormed_units hdigits

mutual

theorem stringify_wellFormed : ∀ (v : Json) (t : JsString), stringify v = some t → isWellFormed t = true
  | .null, t, h | .bool true, t, h | .bool false, t, h => by
    cases h
    decide
  | .num q, t, h => by
    simp only [stringify] at h
    split at h
    · cases h
      exact intText_wellFormed q.num
    · cases h
  | .str s, t, h => by
    cases h
    exact quote_wellFormed s
  | .arr items, t, h => by
    simp only [stringify] at h
    obtain ⟨ts, hts, rfl⟩ := Option.map_eq_some_iff.mp h
    rw [wellFormed_plain (by decide) (by decide)]
    exact items_wellFormed items ts hts
  | .obj fields, t, h => by
    simp only [stringify] at h
    obtain ⟨ts, hts, rfl⟩ := Option.map_eq_some_iff.mp h
    rw [wellFormed_plain (by decide) (by decide)]
    exact fields_wellFormed fields ts hts

theorem items_wellFormed : ∀ (vs : List Json) (ts : JsString), stringifyItems vs = some ts → isWellFormed ts = true
  | [], ts, h => by
    cases h
    decide
  | v :: vs, ts, h => by
    obtain ⟨t, ht, ⟨-, rfl⟩ | ⟨w, ws, us, hvs, hus, rfl⟩⟩ := stringifyItems_cons h
    · exact wellFormed_append (stringify_wellFormed v t ht) (by decide)
    · refine wellFormed_append (stringify_wellFormed v t ht) ?_
      rw [wellFormed_plain (by decide) (by decide)]
      exact items_wellFormed vs us hus

theorem fields_wellFormed : ∀ (fs : List (JsString × Json)) (ts : JsString), stringifyFields fs = some ts →
    isWellFormed ts = true
  | [], ts, h => by
    cases h
    decide
  | (k, v) :: fs, ts, h => by
    obtain ⟨t, ht, ⟨-, rfl⟩ | ⟨g, gs, us, hfs, hus, rfl⟩⟩ := stringifyFields_cons h
    · refine wellFormed_append (quote_wellFormed k) ?_
      rw [wellFormed_plain (by decide) (by decide)]
      exact wellFormed_append (stringify_wellFormed v t ht) (by decide)
    · refine wellFormed_append (quote_wellFormed k) ?_
      rw [wellFormed_plain (by decide) (by decide)]
      refine wellFormed_append (stringify_wellFormed v t ht) ?_
      rw [wellFormed_plain (by decide) (by decide)]
      exact fields_wellFormed fs us hus

end

/-- A value's text starts with a character JSON has. -/
theorem stringify_head {v : Json} {t : JsString} (h : stringify v = some t) : t.head? ≠ some 0xfeff := by
  match v with
  | .null | .bool true | .bool false =>
    cases h
    decide
  | .num q =>
    simp only [stringify] at h
    split at h
    · cases h
      unfold intText
      split
      · exact fun hq => absurd (Option.some.inj hq) (by decide)
      · obtain ⟨u, us, he, -⟩ := natText_head q.num.natAbs
        have hu := of_decide_eq_true (natText_digits q.num.natAbs u (by rw [he]; exact List.mem_cons_self))
        rw [he]
        intro hbom
        cases hbom
        exact absurd hu.2 (by decide)
    · cases h
  | .str s =>
    cases h
    exact fun hq => absurd (Option.some.inj hq) (by decide)
  | .arr items | .obj fields =>
    simp only [stringify] at h
    obtain ⟨ts, -, rfl⟩ := Option.map_eq_some_iff.mp h
    exact fun hq => absurd (Option.some.inj hq) (by decide)

end Json
