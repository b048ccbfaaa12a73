import Mathlib

set_option autoImplicit false

/-! Texts as lists of characters: splitting and joining, and numbers in hex, as JavaScript's
strings have them. -/

namespace Text

/-! ### Split and join -/

/-- `join` with one character between. -/
def join (sep : Char) (parts : List (List Char)) : List Char := [sep].intercalate parts

/-- `split` at each two `sep` in a row, from the left. -/
def splitDouble (sep : Char) : List Char → List (List Char)
  | [] => [[]]
  | [x] => [[x]]
  | x :: y :: rest =>
    if x = sep ∧ y = sep then [] :: splitDouble sep rest
    else (splitDouble sep (y :: rest)).modifyHead (x :: ·)

/-- No two `sep` in a row. -/
def Spaced (sep : Char) (s : List Char) : Prop := s.IsChain fun x y => ¬ (x = sep ∧ y = sep)

theorem splitDouble_spaced {sep : Char} {s : List Char} (h : Spaced sep s) : splitDouble sep s = [s] := by
  induction s using splitDouble.induct sep with
  | case1 => rfl
  | case2 x => rfl
  | case3 x y rest hxy _ => exact absurd hxy (List.isChain_cons_cons.mp h).1
  | case4 x y rest hxy ih =>
    rw [splitDouble, if_neg hxy, ih (List.isChain_cons_cons.mp h).2]
    rfl

theorem splitDouble_append {sep : Char} {s : List Char} (h : Spaced sep s) (hlast : s.getLast? ≠ some sep)
    (rest : List Char) : splitDouble sep (s ++ sep :: sep :: rest) = s :: splitDouble sep rest := by
  induction s with
  | nil => rw [List.nil_append, splitDouble, if_pos ⟨rfl, rfl⟩]
  | cons x s ih =>
    cases s with
    | nil =>
      have hx : x ≠ sep := fun he => hlast (congrArg some he)
      rw [List.singleton_append, splitDouble, if_neg (fun hb => hx hb.1), splitDouble, if_pos ⟨rfl, rfl⟩]
      rfl
    | cons y s =>
      obtain ⟨hxy, hs⟩ := List.isChain_cons_cons.mp h
      have hrest := ih hs (by rwa [List.getLast?_cons_cons] at hlast)
      rw [List.cons_append, List.cons_append, splitDouble, if_neg hxy]
      rw [List.cons_append] at hrest
      rw [hrest]
      rfl

/-- Parts that join without two separators in a row. -/
def Parts (sep : Char) (parts : List (List Char)) : Prop := ∀ p ∈ parts, p ≠ [] ∧ sep ∉ p

theorem join_cons_cons (sep : Char) (p q : List Char) (parts : List (List Char)) :
    join sep (p :: q :: parts) = p ++ sep :: join sep (q :: parts) := by
  simp [join, List.intercalate_cons_cons]

theorem spaced_free {sep : Char} {s : List Char} (h : sep ∉ s) : Spaced sep s := by
  induction s with
  | nil => exact .nil
  | cons x s ih =>
    have hx : x ≠ sep := fun he => h (he ▸ List.mem_cons_self)
    cases s with
    | nil => exact .singleton x
    | cons y s => exact List.isChain_cons_cons.mpr ⟨fun hb => hx hb.1, ih fun hm => h (List.mem_cons_of_mem _ hm)⟩

theorem join_head {sep : Char} {parts : List (List Char)} (h : Parts sep parts) (hne : parts ≠ []) :
    ∃ c s, join sep parts = c :: s ∧ c ≠ sep := by
  cases parts with
  | nil => exact absurd rfl hne
  | cons p parts =>
    obtain ⟨hp, hfree⟩ := h p List.mem_cons_self
    obtain ⟨c, p, rfl⟩ := List.exists_cons_of_ne_nil hp
    have hc : c ≠ sep := fun he => hfree (he ▸ List.mem_cons_self)
    cases parts with
    | nil => exact ⟨c, p, by simp [join], hc⟩
    | cons q parts => exact ⟨c, _, by rw [join_cons_cons, List.cons_append], hc⟩

theorem join_spaced {sep : Char} {parts : List (List Char)} (h : Parts sep parts) :
    Spaced sep (join sep parts) ∧ (join sep parts).getLast? ≠ some sep := by
  induction parts with
  | nil => exact ⟨.nil, by simp [join]⟩
  | cons p parts ih =>
    obtain ⟨hp, hfree⟩ := h p List.mem_cons_self
    have hlast : p.getLast? ≠ some sep := fun he => hfree (List.mem_of_getLast? he)
    cases parts with
    | nil => exact ⟨by simpa [join] using spaced_free hfree, by simpa [join] using hlast⟩
    | cons q parts =>
      have hparts : Parts sep (q :: parts) := fun r hr => h r (List.mem_cons_of_mem _ hr)
      obtain ⟨hs, hl⟩ := ih hparts
      obtain ⟨c, s, hcs, hc⟩ := join_head hparts (List.cons_ne_nil _ _)
      rw [hcs] at hs hl
      rw [join_cons_cons, hcs]
      refine ⟨List.isChain_append.mpr ⟨spaced_free hfree,
        List.isChain_cons_cons.mpr ⟨fun hb => hc hb.2, hs⟩, fun x hx y hy => ?_⟩, ?_⟩
      · intro hb
        rw [hb.1] at hx
        exact hlast hx
      · rw [List.getLast?_append_of_ne_nil _ (List.cons_ne_nil _ _), List.getLast?_cons_cons]
        exact hl

/-- Joined parts split apart again; no parts join to a text of one empty part. -/
theorem splitOn_join {sep : Char} {parts : List (List Char)} (h : Parts sep parts) (hne : parts ≠ []) :
    (join sep parts).splitOn sep = parts := List.splitOn_intercalate sep (fun p hp => (h p hp).2) hne

/-! ### Hex -/

/-- The value of a hex digit, in either case. -/
def hexDigit (c : Char) : Option Nat :=
  if 48 ≤ c.toNat ∧ c.toNat ≤ 57 then some (c.toNat - 48)
  else if 97 ≤ c.toNat ∧ c.toNat ≤ 102 then some (c.toNat - 87)
  else if 65 ≤ c.toNat ∧ c.toNat ≤ 70 then some (c.toNat - 55)
  else none

/-- The hex digits in front, after the digits of `n`. -/
def hexFrom (n : Nat) : List Char → Nat
  | [] => n
  | c :: cs =>
    match hexDigit c with
    | some d => hexFrom (16 * n + d) cs
    | none => n

/-- The white space that `parseInt` skips. -/
def isSpace (c : Char) : Bool :=
  decide (9 ≤ c.toNat ∧ c.toNat ≤ 13 ∨ 0x2000 ≤ c.toNat ∧ c.toNat ≤ 0x200a) ||
    [32, 0xa0, 0x1680, 0x2028, 0x2029, 0x202f, 0x205f, 0x3000, 0xfeff].contains c.toNat

def sign : List Char → Bool × List Char
  | '-' :: s => (true, s)
  | '+' :: s => (false, s)
  | s => (false, s)

def skipMark : List Char → List Char
  | '0' :: 'x' :: s => s
  | '0' :: 'X' :: s => s
  | s => s

/-- `parseInt(s, 16)`, where it is exact; `none` is `NaN`. -/
def parseHex (s : List Char) : Option Int :=
  let p := sign (s.dropWhile isSpace)
  let digits := skipMark p.2
  if (digits.head?.bind hexDigit).isSome then
    some (if p.1 then -(hexFrom 0 digits : Int) else hexFrom 0 digits)
  else none

/-- `toString(16)` -/
def hexText : Option Int → List Char
  | none => ['N', 'a', 'N']
  | some n => if n < 0 then '-' :: Nat.toDigits 16 n.natAbs else Nat.toDigits 16 n.natAbs

theorem hexDigit_bounds {c : Char} (h : (hexDigit c).isSome = true) :
    48 ≤ c.toNat ∧ c.toNat ≤ 57 ∨ 97 ≤ c.toNat ∧ c.toNat ≤ 102 ∨ 65 ≤ c.toNat ∧ c.toNat ≤ 70 := by
  unfold hexDigit at h
  split_ifs at h with h1 h2 h3
  · exact Or.inl h1
  · exact Or.inr (Or.inl h2)
  · exact Or.inr (Or.inr h3)
  · cases h

theorem parseHex_digits {s : List Char} (hne : s ≠ []) (h : ∀ c ∈ s, (hexDigit c).isSome = true) :
    parseHex s = some (hexFrom 0 s : Int) := by
  obtain ⟨c, s, rfl⟩ := List.exists_cons_of_ne_nil hne
  have hc := h c List.mem_cons_self
  have hbounds := hexDigit_bounds hc
  have hspace : isSpace c = false := by
    simp [isSpace]
    omega
  have hsign : sign (c :: s) = (false, c :: s) := by
    unfold sign
    split
    · rename_i heq
      cases heq
      exact absurd hbounds (by decide)
    · rename_i heq
      cases heq
      exact absurd hbounds (by decide)
    · rfl
  have hmark : skipMark (c :: s) = c :: s := by
    unfold skipMark
    split
    · rename_i heq
      cases heq
      exact absurd (h 'x' (by simp)) (by decide)
    · rename_i heq
      cases heq
      exact absurd (h 'X' (by simp)) (by decide)
    · rfl
  unfold parseHex
  rw [List.dropWhile_cons_of_neg (by rw [hspace]; decide), hsign]
  simp only [hmark]
  rw [List.head?_cons, Option.bind_some, if_pos hc, if_neg Bool.false_ne_true]

theorem hexDigit_digitChar : ∀ d < 16, hexDigit (Nat.digitChar d) = some d := by decide

/-- The digits of a number: some, in lower case, of its value, and without a zero in front. -/
theorem toDigits_hex (n : Nat) :
    (∀ c ∈ Nat.toDigits 16 n, (hexDigit c).isSome = true ∧ (48 ≤ c.toNat ∧ c.toNat ≤ 57 ∨ 97 ≤ c.toNat ∧ c.toNat ≤ 102)) ∧
    hexFrom 0 (Nat.toDigits 16 n) = n := by
  have hlower : ∀ d < 16, 48 ≤ (Nat.digitChar d).toNat ∧ (Nat.digitChar d).toNat ≤ 57 ∨
      97 ≤ (Nat.digitChar d).toNat ∧ (Nat.digitChar d).toNat ≤ 102 := by decide
  have happend (cs : List Char) (c : Char) (d m : Nat) (hcs : ∀ c ∈ cs, (hexDigit c).isSome = true)
      (hc : hexDigit c = some d) : hexFrom m (cs ++ [c]) = 16 * hexFrom m cs + d := by
    induction cs generalizing m with
    | nil => simp [hexFrom, hc]
    | cons x cs ih =>
      obtain ⟨e, he⟩ := Option.isSome_iff_exists.mp (hcs x List.mem_cons_self)
      simp only [List.cons_append, hexFrom, he]
      exact ih _ fun c hc => hcs c (List.mem_cons_of_mem _ hc)
  induction n using Nat.strongRecOn with
  | ind n ih =>
    by_cases hn : n < 16
    · rw [Nat.toDigits_of_lt_base hn]
      refine ⟨fun c hc => ?_, ?_⟩
      · rw [List.mem_singleton.mp hc, hexDigit_digitChar n hn]
        exact ⟨rfl, hlower n hn⟩
      · simp [hexFrom, hexDigit_digitChar n hn]
    · obtain ⟨hchars, hvalue⟩ := ih (n / 16) (by omega)
      have hd := hexDigit_digitChar (n % 16) (Nat.mod_lt _ (by decide))
      rw [Nat.toDigits_of_base_le (by decide) (by omega)]
      refine ⟨fun c hc => ?_, ?_⟩
      · rcases List.mem_append.mp hc with hc | hc
        · exact hchars c hc
        · rw [List.mem_singleton.mp hc, hd]
          exact ⟨rfl, hlower _ (Nat.mod_lt _ (by decide))⟩
      · rw [happend _ _ (n % 16) 0 (fun c hc => (hchars c hc).1) hd, hvalue]
        omega

theorem parseHex_toDigits (n : Nat) : parseHex (Nat.toDigits 16 n) = some (n : Int) := by
  obtain ⟨hchars, hvalue⟩ := toDigits_hex n
  rw [parseHex_digits Nat.toDigits_ne_nil fun c hc => (hchars c hc).1, hvalue]

end Text
