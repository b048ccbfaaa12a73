import SeedTransport.Udp.Arrivals

set_option autoImplicit false

namespace SeedTransport.Source

open Address Text

/-! What the per-source cap counts an accepted socket's address by (`core.js`, `sourceOf`). -/

/-- The optional `::ffff:` of the expression, in either case. -/
def afterMark (addr : List Char) : List Char :=
  if (addr.take Arrivals.MAPPED.length).map Char.toLower = Arrivals.MAPPED then addr.drop Arrivals.MAPPED.length
  else addr

/-- `\d+\.\d+\.\d+\.\d+` -/
def isDotted (s : List Char) : Bool :=
  let parts := s.splitOn '.'
  decide (parts.length = 4) && parts.all fun p => !p.isEmpty && p.all isDigit

/-- What `.` does not match. -/
def isLineEnd (c : Char) : Bool := [10, 13, 0x2028, 0x2029].contains c.toNat

/-- `replace(/%.*$/, "")` -/
def dropZone : List Char → List Char
  | [] => []
  | c :: s => if c = '%' ∧ s.all (fun c => !isLineEnd c) = true then [] else c :: dropZone s

/-- The groups of a text, filled up to eight where it has a `::`. -/
def expand (text : List Char) : List (List Char) :=
  match splitDouble ':' text with
  | head :: tail :: _ =>
    let groups := groupsOf head
    let rest := groupsOf tail
    groups ++ List.replicate (8 - groups.length - rest.length) ['0'] ++ rest
  | halves => groupsOf (halves.headD [])

/-- The lower case of the language's `toLowerCase` differs from `Char.toLower` in nothing that
is a digit, a separator or a space to `parseInt`. -/
def sourceOf (addr : List Char) : List Char :=
  let v4 := afterMark addr
  if isDotted v4 = true then v4
  else if ':' ∉ addr then addr
  else
    let groups := expand (dropZone (addr.map Char.toLower))
    join ':' ((groups.take 4).map fun g => hexText (parseHex g)) ++ "::/64".toList

/-! ### Spellings -/

/-- A group's text: its digits in either case, with zeros in front or without. -/
structure Spells (g : List Char) (v : Nat) : Prop where
  ne_nil : g ≠ []
  hex : ∀ c ∈ g, (Text.hexDigit c).isSome = true
  value : hexFrom 0 g = v

/-- A text of an address of these groups: all of them, or those around a `::`. -/
inductive Spelling (gs : List Nat) : List Char → Prop
  | full (parts : List (List Char)) (h : List.Forall₂ Spells parts gs) : Spelling gs (join ':' parts)
  | shortened (front back : List (List Char)) (vs ws : List Nat) (n : Nat) (hfront : List.Forall₂ Spells front vs)
      (hback : List.Forall₂ Spells back ws) (hn : 1 ≤ n) (hgs : gs = vs ++ List.replicate n 0 ++ ws) :
      Spelling gs (join ':' front ++ ':' :: ':' :: join ':' back)

/-- With a zone behind it or without. -/
inductive Zoned (text : List Char) : List Char → Prop
  | plain : Zoned text text
  | zone (name : List Char) (h : ∀ c ∈ name, isLineEnd c = false) : Zoned text (text ++ '%' :: name)

/-- The texts of an IPv4 address: dotted, plain or mapped. -/
inductive Dotted (ip : Bytes) : List Char → Prop
  | plain : Dotted ip (Arrivals.dotted ip 0)
  | mapped (mark : List Char) (h : mark.map Char.toLower = Arrivals.MAPPED) : Dotted ip (mark ++ Arrivals.dotted ip 0)

theorem toLower_ascii : ∀ n < 128, Text.hexDigit (Char.ofNat n).toLower = Text.hexDigit (Char.ofNat n) := by decide

theorem toLower_hex {c : Char} (h : (Text.hexDigit c).isSome = true) : Text.hexDigit c.toLower = Text.hexDigit c := by
  have hbounds := hexDigit_bounds h
  have := toLower_ascii c.toNat (by omega)
  rwa [Char.ofNat_toNat] at this

theorem hexFrom_lower {g : List Char} (h : ∀ c ∈ g, (Text.hexDigit c).isSome = true) (n : Nat) :
    hexFrom n (g.map Char.toLower) = hexFrom n g := by
  induction g generalizing n with
  | nil => rfl
  | cons c g ih =>
    obtain ⟨d, hd⟩ := Option.isSome_iff_exists.mp (h c List.mem_cons_self)
    rw [List.map_cons, hexFrom, hexFrom, toLower_hex (h c List.mem_cons_self), hd]
    exact ih (fun x hx => h x (List.mem_cons_of_mem _ hx)) _

theorem Spells.lower {g : List Char} {v : Nat} (h : Spells g v) : Spells (g.map Char.toLower) v where
  ne_nil := fun hn => h.ne_nil (List.map_eq_nil_iff.mp hn)
  hex := fun c hc => by
    obtain ⟨x, hx, rfl⟩ := List.mem_map.mp hc
    rw [toLower_hex (h.hex x hx)]
    exact h.hex x hx
  value := by rw [hexFrom_lower h.hex, h.value]

theorem Spells.free {g : List Char} {v : Nat} (h : Spells g v) {sep : Char} (hs : Text.hexDigit sep = none) : sep ∉ g := by
  intro hm
  have := h.hex sep hm
  rw [hs] at this
  cases this

theorem Spells.read {g : List Char} {v : Nat} (h : Spells g v) : parseHex g = some (v : Int) := by
  rw [parseHex_digits h.ne_nil h.hex, h.value]

theorem spells_parts {parts : List (List Char)} {vs : List Nat} (h : List.Forall₂ Spells parts vs) :
    Parts ':' parts := by
  intro g hg
  obtain ⟨i, hi, rfl⟩ := List.mem_iff_getElem.mp hg
  have hv := h.get hi (h.length_eq ▸ hi)
  exact ⟨hv.ne_nil, hv.free (by decide)⟩

theorem spells_read {parts : List (List Char)} {vs : List Nat} (h : List.Forall₂ Spells parts vs) :
    parts.map parseHex = vs.map fun v : Nat => some (v : Int) := by
  induction h with
  | nil => rfl
  | cons hg _ ih => rw [List.map_cons, List.map_cons, hg.read, ih]

theorem spells_lower {parts : List (List Char)} {vs : List Nat} (h : List.Forall₂ Spells parts vs) :
    List.Forall₂ Spells (parts.map (List.map Char.toLower)) vs := by
  rw [List.forall₂_map_left_iff]
  exact h.imp fun _ _ hg => hg.lower

theorem join_lower (parts : List (List Char)) :
    (join ':' parts).map Char.toLower = join ':' (parts.map (List.map Char.toLower)) := by
  induction parts with
  | nil => rfl
  | cons p parts ih =>
    cases parts with
    | nil => simp [join]
    | cons q parts =>
      rw [join_cons_cons, List.map_append, List.map_cons, ih, List.map_cons, List.map_cons, List.map_cons, join_cons_cons]
      rfl

theorem Spelling.lower {gs : List Nat} {text : List Char} (h : Spelling gs text) :
    Spelling gs (text.map Char.toLower) := by
  cases h with
  | full parts h =>
    rw [join_lower]
    exact .full _ (spells_lower h)
  | shortened front back vs ws n hfront hback hn hgs =>
    rw [List.map_append, List.map_cons, List.map_cons, join_lower, join_lower]
    exact .shortened _ _ vs ws n (spells_lower hfront) (spells_lower hback) hn hgs

theorem Spelling.chars {gs : List Nat} {text : List Char} (h : Spelling gs text) :
    ∀ c ∈ text, (Text.hexDigit c).isSome = true ∨ c = ':' := by
  have hjoin {parts : List (List Char)} {vs : List Nat} (hp : List.Forall₂ Spells parts vs) :
      ∀ c ∈ join ':' parts, (Text.hexDigit c).isSome = true ∨ c = ':' := fun c hc => by
    rcases mem_join hc with hcolon | ⟨p, hpm, hcp⟩
    · exact Or.inr hcolon
    · obtain ⟨i, hi, rfl⟩ := List.mem_iff_getElem.mp hpm
      exact Or.inl ((hp.get hi (hp.length_eq ▸ hi)).hex c hcp)
  cases h with
  | full parts h => exact hjoin h
  | shortened front back vs ws n hfront hback _ _ =>
    intro c hc
    rcases List.mem_append.mp hc with hc | hc
    · exact hjoin hfront c hc
    · rcases List.mem_cons.mp hc with hc | hc
      · exact Or.inr hc
      · rcases List.mem_cons.mp hc with hc | hc
        · exact Or.inr hc
        · exact hjoin hback c hc

theorem Spelling.free {gs : List Nat} {text : List Char} (h : Spelling gs text) {c : Char} (hx : Text.hexDigit c = none)
    (hc : c ≠ ':') : c ∉ text := by
  intro hm
  rcases h.chars c hm with hd | hcolon
  · rw [hx] at hd
    cases hd
  · exact hc hcolon

theorem Spelling.colon {gs : List Nat} {text : List Char} (h : Spelling gs text) (hgs : Groups gs) : ':' ∈ text := by
  cases h with
  | full parts h =>
    have hcount : parts.length = 8 := h.length_eq.trans hgs.count
    match parts, hcount with
    | p :: q :: rest, _ =>
      rw [join_cons_cons]
      exact List.mem_append_right _ List.mem_cons_self
  | shortened front back vs ws n _ _ _ _ => exact List.mem_append_right _ List.mem_cons_self

/-! ### The groups read back -/

theorem Spelling.read {gs : List Nat} {text : List Char} (h : Spelling gs text) (hgs : Groups gs) :
    (expand text).map parseHex = gs.map fun v : Nat => some (v : Int) := by
  cases h with
  | full parts h =>
    have hparts := spells_parts h
    rw [expand, splitDouble_spaced (join_spaced hparts).1]
    simp only [List.headD_cons]
    rw [groupsOf_join hparts, spells_read h]
  | shortened front back vs ws n hfront hback hn hsum =>
    have hf := spells_parts hfront
    have hb := spells_parts hback
    obtain ⟨hs, hl⟩ := join_spaced hf
    have hcount := hgs.count
    have hn : 8 - front.length - back.length = n := by
      rw [hfront.length_eq, hback.length_eq]
      rw [hsum] at hcount
      simp only [List.length_append, List.length_replicate] at hcount
      omega
    rw [expand, splitDouble_append hs hl, splitDouble_spaced (join_spaced hb).1]
    simp only [groupsOf_join hf, groupsOf_join hb, hn, List.map_append, spells_read hfront, spells_read hback, hsum,
      List.map_replicate]
    rfl

theorem dropZone_cons {c : Char} (h : c ≠ '%') (s : List Char) : dropZone (c :: s) = c :: dropZone s := by
  rw [dropZone, if_neg]
  intro hb
  exact h hb.1

theorem dropZone_free {s : List Char} (h : '%' ∉ s) : dropZone s = s := by
  induction s with
  | nil => rfl
  | cons c s ih =>
    obtain ⟨hc, hs⟩ := List.ne_and_not_mem_of_not_mem_cons h
    rw [dropZone_cons hc.symm, ih hs]

theorem dropZone_zone {s : List Char} (h : '%' ∉ s) {name : List Char} (hn : ∀ c ∈ name, isLineEnd c = false) :
    dropZone (s ++ '%' :: name) = s := by
  induction s with
  | nil =>
    have hall : name.all (fun c => !isLineEnd c) = true := by
      rw [List.all_eq_true]
      intro c hc
      rw [hn c hc]
      rfl
    rw [List.nil_append, dropZone, if_pos ⟨rfl, hall⟩]
  | cons c s ih =>
    obtain ⟨hc, hs⟩ := List.ne_and_not_mem_of_not_mem_cons h
    rw [List.cons_append, dropZone_cons hc.symm, ih hs]

theorem isLineEnd_lower (c : Char) (h : isLineEnd c = false) : isLineEnd c.toLower = false := by
  by_cases hc : c.isUpper = true
  · have hbounds : 65 ≤ c.toNat ∧ c.toNat ≤ 90 := by
      simp only [Char.isUpper, decide_eq_true_eq] at hc
      exact ⟨UInt32.le_iff_toNat_le.mp hc.1, UInt32.le_iff_toNat_le.mp hc.2⟩
    have hall : ∀ n < 128, 65 ≤ n → isLineEnd (Char.ofNat n).toLower = false := by decide
    have := hall c.toNat (by omega) hbounds.1
    rwa [Char.ofNat_toNat] at this
  · rwa [Char.toLower_eq_of_not_isUpper hc]

/-- The zone is gone, and what it stood behind is in lower case. -/
theorem Zoned.dropped {text addr : List Char} (h : Zoned text addr) (hfree : '%' ∉ text.map Char.toLower) :
    dropZone (addr.map Char.toLower) = text.map Char.toLower := by
  cases h with
  | plain => exact dropZone_free hfree
  | zone name hn =>
    rw [List.map_append, List.map_cons]
    refine dropZone_zone hfree fun c hc => ?_
    obtain ⟨x, hx, rfl⟩ := List.mem_map.mp hc
    exact isLineEnd_lower x (hn x hx)

/-! ### Neither is taken for the other -/

theorem isDotted_chars {s : List Char} (h : isDotted s = true) : '.' ∈ s ∧ ∀ c ∈ s, isDigit c = true ∨ c = '.' := by
  rw [isDotted, Bool.and_eq_true, decide_eq_true_eq] at h
  obtain ⟨hcount, hall⟩ := h
  constructor
  · by_contra hn
    rw [List.splitOn_eq_singleton hn] at hcount
    cases hcount
  · have hjoin : join '.' (s.splitOn '.') = s := List.intercalate_splitOn '.'
    intro c hc
    rw [← hjoin] at hc
    rcases mem_join hc with hdot | ⟨p, hp, hcp⟩
    · exact Or.inr hdot
    · have hpart := List.all_eq_true.mp hall p hp
      rw [Bool.and_eq_true] at hpart
      exact Or.inl (List.all_eq_true.mp hpart.2 c hcp)

theorem mem_afterMark {addr : List Char} {c : Char} (hc : c ∈ addr) (hl : c.toLower ∉ Arrivals.MAPPED) :
    c ∈ afterMark addr := by
  unfold afterMark
  split_ifs with hmark
  · rw [← List.take_append_drop Arrivals.MAPPED.length addr] at hc
    rcases List.mem_append.mp hc with htake | hdrop
    · have := List.mem_map_of_mem (f := Char.toLower) htake
      rw [hmark] at this
      exact absurd this hl
    · exact hdrop
  · exact hc

theorem afterMark_sub {addr : List Char} {c : Char} (hc : c ∈ afterMark addr) : c ∈ addr := by
  unfold afterMark at hc
  split_ifs at hc
  · exact List.mem_of_mem_drop hc
  · exact hc

theorem Spelling.not_dotted {gs : List Nat} {text addr : List Char} (h : Spelling gs text) (hz : Zoned text addr) :
    isDotted (afterMark addr) = false := by
  by_contra hd
  obtain ⟨hdot, hchars⟩ := isDotted_chars (Bool.eq_true_of_not_eq_false hd)
  cases hz with
  | plain => exact h.free (by decide) (by decide) (afterMark_sub hdot)
  | zone name hn =>
    have hmem : '%' ∈ afterMark (text ++ '%' :: name) :=
      mem_afterMark (List.mem_append_right _ List.mem_cons_self) (by decide)
    rcases hchars '%' hmem with hdigit | heq
    · exact absurd hdigit (by decide)
    · exact absurd heq (by decide)

/-! ### Sources -/

/-- The /64 of these groups. -/
def subnet (gs : List Nat) : List Char := join ':' ((gs.take 4).map (Nat.toDigits 16)) ++ "::/64".toList

theorem sourceOf_spelling {gs : List Nat} (hgs : Groups gs) {text addr : List Char} (h : Spelling gs text)
    (hz : Zoned text addr) : sourceOf addr = subnet gs := by
  have hcolon : ':' ∈ addr := by
    cases hz with
    | plain => exact h.colon hgs
    | zone name _ => exact List.mem_append_left _ (h.colon hgs)
  have hdrop := hz.dropped (h.lower.free (by decide) (by decide))
  have hread : (expand (text.map Char.toLower)).map (fun g => hexText (parseHex g)) = gs.map (Nat.toDigits 16) := by
    have hmap : (expand (text.map Char.toLower)).map (fun g => hexText (parseHex g)) =
        ((expand (text.map Char.toLower)).map parseHex).map hexText := by
      rw [List.map_map]
      rfl
    rw [hmap, h.lower.read hgs, List.map_map]
    refine List.map_congr_left fun v _ => ?_
    simp [hexText]
  unfold sourceOf
  simp only [h.not_dotted hz, Bool.false_eq_true, if_false, hcolon, not_true, hdrop]
  rw [List.map_take, hread, subnet, List.map_take]

theorem subnet_injective {gs gs' : List Nat} (hgs : Groups gs) (hgs' : Groups gs') (h : subnet gs = subnet gs') :
    gs.take 4 = gs'.take 4 := by
  have hne {vs : List Nat} (hvs : Groups vs) : (vs.take 4).map (Nat.toDigits 16) ≠ [] := by
    intro hn
    have := congrArg List.length hn
    rw [List.length_map, List.length_take, hvs.count] at this
    cases this
  have hjoin := List.append_cancel_right h
  have hsplit := congrArg (List.splitOn ':') hjoin
  rw [splitOn_join (parts_hex _) (hne hgs), splitOn_join (parts_hex _) (hne hgs')] at hsplit
  refine List.map_injective_iff.mpr (fun a b hab => ?_) hsplit
  have hread := parseHex_toDigits a
  rw [hab, parseHex_toDigits] at hread
  exact (Int.natCast_inj.mp (Option.some.inj hread)).symm

theorem isDotted_dotted (ip : Bytes) : isDotted (Arrivals.dotted ip 0) = true := by
  rw [isDotted, Arrivals.dotted, splitOn_join (Arrivals.dotted_parts ip 0) (by simp), Bool.and_eq_true, List.all_eq_true]
  refine ⟨rfl, fun p hp => ?_⟩
  obtain ⟨i, -, rfl⟩ := List.mem_map.mp hp
  rw [Bool.and_eq_true, List.all_eq_true]
  refine ⟨?_, fun c hc => ?_⟩
  · rw [Bool.not_eq_true', List.isEmpty_eq_false_iff]
    exact Nat.toDigits_ne_nil
  · by_contra hn
    exact Arrivals.digits_free _ (Bool.eq_false_iff.mpr hn) hc

theorem sourceOf_dotted {ip : Bytes} {addr : List Char} (h : Dotted ip addr) : sourceOf addr = Arrivals.dotted ip 0 := by
  have hv4 : afterMark addr = Arrivals.dotted ip 0 := by
    unfold afterMark
    cases h with
    | plain =>
      rw [if_neg]
      intro hmark
      have hc : ':' ∈ Arrivals.MAPPED := by decide
      rw [← hmark] at hc
      obtain ⟨x, hx, hcolon⟩ := List.mem_map.mp hc
      rcases (isDotted_chars (isDotted_dotted ip)).2 x (List.mem_of_mem_take hx) with hdigit | rfl
      · have hlow : ∀ n < 58, (Char.ofNat n).toLower ≠ ':' := by decide
        have := of_decide_eq_true hdigit
        have hx := hlow x.toNat (by omega)
        rw [Char.ofNat_toNat] at hx
        exact hx hcolon
      · exact absurd hcolon (by decide)
    | mapped mark hm =>
      have hlen : Arrivals.MAPPED.length = mark.length := by rw [← hm, List.length_map]
      rw [hlen, List.take_left, if_pos hm, List.drop_left]
  unfold sourceOf
  simp only [hv4, isDotted_dotted, if_true]

theorem dotted_injective {ip ip' : Bytes} (h : ip.length = 4) (h' : ip'.length = 4)
    (he : Arrivals.dotted ip 0 = Arrivals.dotted ip' 0) : ip = ip' := by
  have hread := (Arrivals.ipOf_dotted h).1
  rw [he, (Arrivals.ipOf_dotted h').1] at hread
  exact (Option.some.inj hread).symm

/-- One source for each /64, however its addresses are spelled, and one for each IPv4 address. -/
theorem source_groups :
    (∀ gs gs' text text' addr addr', Groups gs → Groups gs' → Spelling gs text → Spelling gs' text' →
      Zoned text addr → Zoned text' addr' → (sourceOf addr = sourceOf addr' ↔ gs.take 4 = gs'.take 4)) ∧
    (∀ (ip ip' : Bytes) (addr addr' : List Char), ip.length = 4 → ip'.length = 4 → Dotted ip addr → Dotted ip' addr' →
      (sourceOf addr = sourceOf addr' ↔ ip = ip')) ∧
    ∀ (ip : Bytes) (gs : List Nat) (text addr addr' : List Char), ip.length = 4 → Groups gs → Dotted ip addr →
      Spelling gs text → Zoned text addr' → sourceOf addr ≠ sourceOf addr' := by
  refine ⟨?_, ?_, ?_⟩
  · intro gs gs' text text' addr addr' hgs hgs' h h' hz hz'
    rw [sourceOf_spelling hgs h hz, sourceOf_spelling hgs' h' hz']
    constructor
    · exact subnet_injective hgs hgs'
    · intro he
      rw [subnet, subnet, he]
  · intro ip ip' addr addr' hip hip' h h'
    rw [sourceOf_dotted h, sourceOf_dotted h']
    exact ⟨dotted_injective hip hip', congrArg fun ip => Arrivals.dotted ip 0⟩
  · intro ip gs text addr addr' _ hgs h ht hz he
    rw [sourceOf_dotted h, sourceOf_spelling hgs ht hz] at he
    have hcolon : ':' ∈ subnet gs := List.mem_append_right _ (by decide)
    rw [← he] at hcolon
    exact Arrivals.dotted_free ip 0 hcolon

end SeedTransport.Source
