import SeedTransport.Lib.OrdMap
import SeedTransport.Link.State

set_option autoImplicit false

namespace SeedTransport

/-! The link limiter (`core.js`, class `LinkLimiter`). A slot is an object that its link and
the limiter's books share, so it is kept in a store and named by its place there. The
limiter never looks into a source. -/

/-- A slot as the limiter keeps it. -/
structure Booking (σ : Type) where
  source : Option σ
  tier : Tier
  released : Bool
  bookId : Nat
  deriving DecidableEq

/-- `bookings` is for an observer: the slots in the order they were booked, so that a
booking's place in it is its `bookId`. -/
structure LinkLimiter (σ : Type) where
  maxPerSource : Nat
  max : Tier → Nat
  books : Tier → OrdMap Nat Nat
  nextId : Nat
  perSource : OrdMap σ Nat
  slots : List (Booking σ)
  bookings : List Nat

/-- What a link does to the limiter while it is evicted: it aborts, which may close others,
and what it hands on to another link is traffic there. -/
inductive Reentry where
  | release (slot : Nat)
  | touch (slot : Nat)
  deriving DecidableEq

namespace LinkLimiter

variable {σ : Type} [DecidableEq σ]

def create (maxPerSource : Nat) (max : Tier → Nat) : LinkLimiter σ where
  maxPerSource := maxPerSource
  max := max
  books _ := .empty
  nextId := 0
  perSource := .empty
  slots := []
  bookings := []

def unbook (s : Booking σ) (l : LinkLimiter σ) : LinkLimiter σ :=
  { l with books := Function.update l.books s.tier ((l.books s.tier).delete s.bookId) }

/-- `slot.bookId = this.nextId++` and the entry of it in the book of `tier`. -/
def book (slot : Nat) (s : Booking σ) (tier : Tier) (l : LinkLimiter σ) : LinkLimiter σ :=
  { l with
    books := Function.update l.books tier ((l.books tier).set l.nextId slot)
    nextId := l.nextId + 1
    slots := l.slots.set slot { s with tier := tier, bookId := l.nextId }
    bookings := l.bookings ++ [slot] }

/-- The counts with one slot of `source` off. -/
def uncount (source : Option σ) (perSource : OrdMap σ Nat) : OrdMap σ Nat :=
  match source with
  | none => perSource
  | some src =>
    match perSource.get src with
    | none => perSource
    | some n => if n ≤ 1 then perSource.delete src else perSource.set src (n - 1)

/-- Remove from its tier and its source's count, permanently. -/
def release (slot : Nat) (l : LinkLimiter σ) : LinkLimiter σ :=
  match l.slots[slot]? with
  | none => l
  | some s =>
    if s.released then l
    else
      { l.unbook s with
        slots := l.slots.set slot { s with released := true }
        perSource := uncount s.source l.perSource }

/-- Traffic on an authenticated link moves it to the tail. -/
def touch (slot : Nat) (l : LinkLimiter σ) : LinkLimiter σ :=
  match l.slots[slot]? with
  | none => l
  | some s => if s.released || s.tier ≠ .authed then l else (l.unbook s).book slot s .authed

def reenter (r : Reentry) (l : LinkLimiter σ) : LinkLimiter σ :=
  match r with
  | .release slot => l.release slot
  | .touch slot => l.touch slot

/-- The slot a full tier sheds for a newcomer: the first in its book. -/
def victim (tier : Tier) (l : LinkLimiter σ) : Option Nat :=
  if (l.books tier).size < l.max tier then none
  else (l.books tier).entries.head?.map Prod.snd

/-- Make room for one slot; `evict` is what the victim's callback does. -/
def makeRoom (tier : Tier) (evict : List Reentry) (l : LinkLimiter σ) : Bool × LinkLimiter σ :=
  if (l.books tier).size < l.max tier then (true, l)
  else
    match l.victim tier with
    | none => (false, l)
    | some v => (true, evict.foldl (fun l r => l.reenter r) (l.release v))

/-- The counts with one slot of `source` on. -/
def count (source : Option σ) (perSource : OrdMap σ Nat) : OrdMap σ Nat :=
  match source with
  | none => perSource
  | some src => perSource.set src ((perSource.get src).getD 0 + 1)

/-- A source at its cap gets no slot. -/
def crowded (source : Option σ) (l : LinkLimiter σ) : Bool :=
  match source with
  | none => false
  | some src => decide (l.maxPerSource ≤ (l.perSource.get src).getD 0)

def acquire (source : Option σ) (evict : List Reentry) (l : LinkLimiter σ) :
    Option Nat × LinkLimiter σ :=
  if l.crowded source then (none, l)
  else
    match l.makeRoom .unverified evict with
    | (false, l) => (none, l)
    | (true, l) =>
      let slot := l.slots.length
      let s : Booking σ := { source, tier := .unverified, released := false, bookId := l.nextId }
      (some slot, book slot s .unverified
        { l with slots := l.slots ++ [s], perSource := count source l.perSource })

/-- The slot is read again behind the eviction. -/
def move (slot : Nat) (tier : Tier) (evict : List Reentry) (l : LinkLimiter σ) :
    Bool × LinkLimiter σ :=
  match l.slots[slot]? with
  | none => (true, l)
  | some s =>
    if s.released || s.tier = tier then (true, l)
    else
      match l.makeRoom tier evict with
      | (false, l) => (false, l)
      | (true, l) =>
        match l.slots[slot]? with
        | none => (true, l)
        | some s => (true, (l.unbook s).book slot s tier)

/-- A msg1 opened. -/
def promote (slot : Nat) (evict : List Reentry) (l : LinkLimiter σ) : Bool × LinkLimiter σ :=
  l.move slot .verified evict

/-- The identity is proved and admitted. -/
def hold (slot : Nat) (evict : List Reentry) (l : LinkLimiter σ) : Bool × LinkLimiter σ :=
  l.move slot .authed evict

/-- A call of the limiter, with what the callback of the link it evicts does. -/
inductive Op (σ : Type) where
  | acquire (source : Option σ) (evict : List Reentry)
  | promote (slot : Nat) (evict : List Reentry)
  | hold (slot : Nat) (evict : List Reentry)
  | touch (slot : Nat)
  | release (slot : Nat)

def step (l : LinkLimiter σ) : Op σ → LinkLimiter σ
  | .acquire source evict => (l.acquire source evict).2
  | .promote slot evict => (l.promote slot evict).2
  | .hold slot evict => (l.hold slot evict).2
  | .touch slot => l.touch slot
  | .release slot => l.release slot

def run (l : LinkLimiter σ) (ops : List (Op σ)) : LinkLimiter σ := ops.foldl step l

/-- No callback of an eviction releases the very slot the eviction makes room for: a link's
own release waits behind the step that moves its slot. -/
def Op.Apart : Op σ → Prop
  | .promote slot evict => Reentry.release slot ∉ evict
  | .hold slot evict => Reentry.release slot ∉ evict
  | _ => True

/-! ### What holds between calls -/

/-- The unreleased slots of a source. -/
def held (src : σ) (l : LinkLimiter σ) : Nat :=
  l.slots.countP fun s => decide (s.source = some src) && !s.released

/-- The last time `slot` was booked was booking number `b`. -/
def Latest (bookings : List Nat) (slot b : Nat) : Prop :=
  bookings[b]? = some slot ∧ ∀ b', b < b' → bookings[b']? ≠ some slot

structure Sound (l : LinkLimiter σ) : Prop where
  booked : ∀ t b i, (l.books t).get b = some i ↔
    ∃ s, l.slots[i]? = some s ∧ s.released = false ∧ s.tier = t ∧ s.bookId = b
  sorted : ∀ t, (l.books t).keys.Pairwise (· < ·)
  size : ∀ t, (l.books t).size ≤ l.max t
  counted : ∀ src, l.perSource.get src = if l.held src = 0 then none else some (l.held src)
  capped : ∀ src, l.held src ≤ l.maxPerSource
  clock : l.nextId = l.bookings.length
  latest : ∀ i s, l.slots[i]? = some s → s.released = false → Latest l.bookings i s.bookId

theorem sound_create (maxPerSource : Nat) (max : Tier → Nat) :
    (create maxPerSource max : LinkLimiter σ).Sound := by
  constructor <;> simp [create, held, OrdMap.keys, OrdMap.size, OrdMap.get_empty] <;>
    simp [OrdMap.empty]

theorem Latest.concat {bookings : List Nat} {slot b : Nat} (other : Nat) (h : Latest bookings slot b)
    (hne : other ≠ slot) : Latest (bookings ++ [other]) slot b := by
  have hb : b < bookings.length := (List.getElem?_eq_some_iff.1 h.1).1
  refine ⟨by rw [List.getElem?_append_left hb]; exact h.1, fun b' hlt heq => ?_⟩
  rcases Nat.lt_or_ge b' bookings.length with hb' | hb'
  · rw [List.getElem?_append_left hb'] at heq
    exact h.2 b' hlt heq
  · rw [List.getElem?_append_right hb'] at heq
    have := List.mem_of_getElem? heq
    simp at this
    exact hne this.symm

theorem latest_concat_self (bookings : List Nat) (slot : Nat) :
    Latest (bookings ++ [slot]) slot bookings.length := by
  refine ⟨by simp, fun b' hlt => ?_⟩
  rw [List.getElem?_eq_none (by simp; omega)]
  simp

section Keep

variable {l : LinkLimiter σ}

theorem Sound.bookId_lt (h : l.Sound) {i : Nat} {s : Booking σ} (hs : l.slots[i]? = some s)
    (hr : s.released = false) : s.bookId < l.nextId := by
  rw [h.clock]
  exact (List.getElem?_eq_some_iff.1 (h.latest i s hs hr).1).1

theorem Sound.unused (h : l.Sound) (t : Tier) : (l.books t).get l.nextId = none := by
  cases hg : (l.books t).get l.nextId with
  | none => rfl
  | some i =>
    obtain ⟨s, hs, hr, -, hb⟩ := (h.booked t l.nextId i).1 hg
    have := h.bookId_lt hs hr
    omega

/-- A slot is booked once. -/
theorem Sound.one_book (h : l.Sound) {i : Nat} {s : Booking σ} {t : Tier} {b : Nat}
    (hs : l.slots[i]? = some s) (hg : (l.books t).get b = some i) : s.tier = t ∧ s.bookId = b := by
  obtain ⟨s', hs', -, ht, hb⟩ := (h.booked t b i).1 hg
  rw [hs] at hs'
  cases hs'
  exact ⟨ht, hb⟩

theorem get_uncount (source : Option σ) (m : OrdMap σ Nat) (src : σ) :
    (uncount source m).get src =
      if source = some src then (m.get src).bind fun n => if n ≤ 1 then none else some (n - 1)
      else m.get src := by
  cases source with
  | none => simp [uncount]
  | some s =>
    simp only [uncount, Option.some.injEq]
    cases hg : m.get s with
    | none => aesop
    | some n =>
      simp only
      split
      · rw [OrdMap.get_delete]
        aesop
      · rw [OrdMap.get_set]
        aesop

theorem held_set (src : σ) {slots : List (Booking σ)} {i : Nat} {s : Booking σ} (s' : Booking σ)
    (hs : slots[i]? = some s) :
    ((slots.set i s').countP fun s => decide (s.source = some src) && !s.released) =
      (slots.countP fun s => decide (s.source = some src) && !s.released) -
        (if s.source = some src ∧ s.released = false then 1 else 0) +
        (if s'.source = some src ∧ s'.released = false then 1 else 0) := by
  obtain ⟨hi, rfl⟩ := List.getElem?_eq_some_iff.1 hs
  rw [List.countP_set hi]
  simp

/-- A slot held counts. -/
theorem held_pos {src : σ} {i : Nat} {s : Booking σ} (hs : l.slots[i]? = some s)
    (hsrc : s.source = some src) (hr : s.released = false) : 0 < l.held src :=
  List.countP_pos_iff.2 ⟨s, List.mem_of_getElem? hs, by simp [hsrc, hr]⟩

/-- Sound but for slot `i`, which is held and in no book. -/
structure Loose (i : Nat) (l : LinkLimiter σ) : Prop where
  booked : ∀ t b j, (l.books t).get b = some j ↔
    j ≠ i ∧ ∃ s, l.slots[j]? = some s ∧ s.released = false ∧ s.tier = t ∧ s.bookId = b
  sorted : ∀ t, (l.books t).keys.Pairwise (· < ·)
  size : ∀ t, (l.books t).size ≤ l.max t
  counted : ∀ src, l.perSource.get src = if l.held src = 0 then none else some (l.held src)
  capped : ∀ src, l.held src ≤ l.maxPerSource
  clock : l.nextId = l.bookings.length
  latest : ∀ j s, j ≠ i → l.slots[j]? = some s → s.released = false →
    Latest l.bookings j s.bookId

theorem Sound.unbook (h : l.Sound) {i : Nat} {s : Booking σ} (hs : l.slots[i]? = some s)
    (hr : s.released = false) : Loose i (l.unbook s) := by
  have hhere := (h.booked s.tier s.bookId i).2 ⟨s, hs, hr, rfl, rfl⟩
  constructor
  · intro t b j
    have hj := h.booked t b j
    have hone : ∀ t b, (l.books t).get b = some i → s.tier = t ∧ s.bookId = b :=
      fun t b hg => h.one_book hs hg
    simp only [LinkLimiter.unbook, Function.update_apply]
    by_cases hij : j = i
    · subst hij
      simp only [ne_eq, not_true_eq_false, false_and, iff_false]
      split
      · rename_i ht
        subst ht
        rw [OrdMap.get_delete]
        split
        · simp
        · rename_i hb
          exact fun hg => hb (hone _ _ hg).2.symm
      · rename_i ht
        exact fun hg => ht (hone _ _ hg).1.symm
    · simp only [ne_eq, hij, not_false_eq_true, true_and]
      rw [← hj]
      split
      · rename_i ht
        subst ht
        rw [OrdMap.get_delete]
        split
        · rename_i hb
          subst hb
          rw [hhere]
          simp [Ne.symm hij]
        · rfl
      · rfl
  · intro t
    simp only [LinkLimiter.unbook, Function.update_apply]
    split
    · exact (h.sorted s.tier).sublist (OrdMap.keys_delete_sublist _ _)
    · exact h.sorted t
  · intro t
    simp only [LinkLimiter.unbook, Function.update_apply]
    split
    · rename_i ht
      subst ht
      have := OrdMap.size_delete (l.books s.tier) hhere
      have := h.size s.tier
      omega
    · exact h.size t
  · exact h.counted
  · exact h.capped
  · exact h.clock
  · exact fun j s _ => h.latest j s

/-- A loose slot goes into the book of a tier with room for it. -/
theorem Loose.book {i : Nat} (h : Loose i l) {s : Booking σ} {t : Tier} (hs : l.slots[i]? = some s)
    (hr : s.released = false) (hroom : (l.books t).size < l.max t) : (l.book i s t).Sound := by
  have hi : i < l.slots.length := (List.getElem?_eq_some_iff.1 hs).1
  have hold : ∀ t b j, (l.books t).get b = some j → b < l.nextId := by
    intro t b j hg
    obtain ⟨hij, s', hs', hr', -, rfl⟩ := (h.booked t b j).1 hg
    rw [h.clock]
    exact (List.getElem?_eq_some_iff.1 (h.latest j s' hij hs' hr').1).1
  have hnew : ∀ t, (l.books t).get l.nextId = none := by
    intro t
    cases hg : (l.books t).get l.nextId with
    | none => rfl
    | some j => exact absurd (hold t _ j hg) (lt_irrefl _)
  have hheld : ∀ src, held src (l.book i s t) = l.held src := by
    intro src
    have hpos : s.source = some src → 0 < l.held src := fun hsrc => held_pos hs hsrc hr
    simp only [held, LinkLimiter.book] at hpos ⊢
    rw [held_set src _ hs]
    by_cases hsrc : s.source = some src
    · have := hpos hsrc
      simp only [hsrc, hr, and_self, if_true]
      omega
    · simp [hsrc]
  constructor
  · intro t' b j
    simp only [LinkLimiter.book, Function.update_apply, List.getElem?_set, hi, if_true]
    by_cases hij : i = j
    · subst hij
      have hno : ∀ t b, (l.books t).get b ≠ some i := fun t b hg => ((h.booked t b i).1 hg).1 rfl
      simp only [if_true, Option.some.injEq, exists_eq_left', hr, true_and]
      split
      · rename_i ht
        rw [OrdMap.get_set]
        split
        · rename_i hb
          simp [hb, ht]
        · rename_i hb
          simp [hno, Ne.symm hb]
      · rename_i ht
        simp [hno, Ne.symm ht]
    · simp only [if_neg hij]
      have hiff := h.booked t' b j
      simp only [ne_eq, Ne.symm hij, not_false_eq_true, true_and] at hiff
      rw [← hiff]
      split
      · rename_i ht
        subst ht
        rw [OrdMap.get_set]
        split
        · rename_i hb
          subst hb
          simp [hnew, hij]
        · rfl
      · rfl
  · intro t'
    simp only [LinkLimiter.book, Function.update_apply]
    split
    · rename_i ht
      rw [OrdMap.keys, OrdMap.entries_set_new _ _ _ (hnew t), List.map_append,
        List.pairwise_append]
      refine ⟨h.sorted t, by simp, fun a ha b hb => ?_⟩
      obtain ⟨j, hj⟩ := (OrdMap.mem_keys _ _).1 ha
      simp only [List.map_cons, List.map_nil, List.mem_singleton] at hb
      subst hb
      exact hold t a j hj
    · exact h.sorted t'
  · intro t'
    simp only [LinkLimiter.book, Function.update_apply]
    split
    · rename_i ht
      subst ht
      have := OrdMap.size_set_le (l.books t') l.nextId i
      omega
    · exact h.size t'
  · intro src
    rw [hheld]
    exact h.counted src
  · intro src
    rw [hheld]
    exact h.capped src
  · simp [LinkLimiter.book, h.clock]
  · intro j s' hs' hr'
    simp only [LinkLimiter.book, List.getElem?_set, hi, if_true] at hs'
    split at hs'
    · rename_i hij
      subst hij
      cases hs'
      simp only [LinkLimiter.book]
      rw [h.clock]
      exact latest_concat_self _ _
    · rename_i hij
      exact (h.latest j s' (Ne.symm hij) hs' hr').concat i hij

/-- A loose slot is released. -/
theorem Loose.drop {i : Nat} (h : Loose i l) {s : Booking σ} (hs : l.slots[i]? = some s)
    (hr : s.released = false) : Sound { l with
      slots := l.slots.set i { s with released := true }
      perSource := uncount s.source l.perSource } := by
  have hi : i < l.slots.length := (List.getElem?_eq_some_iff.1 hs).1
  have hheld : ∀ src, held src { l with
      slots := l.slots.set i { s with released := true }
      perSource := uncount s.source l.perSource } =
      l.held src - if s.source = some src then 1 else 0 := by
    intro src
    unfold held
    rw [held_set src _ hs]
    simp [hr]
  constructor
  · intro t b j
    rw [h.booked]
    simp only [List.getElem?_set, hi, if_true]
    by_cases hij : i = j
    · simp [hij]
    · simp [hij, Ne.symm hij]
  · exact h.sorted
  · exact h.size
  · intro src
    rw [hheld]
    simp only [get_uncount, h.counted src]
    by_cases hsrc : s.source = some src
    · have := held_pos hs hsrc hr
      rw [if_pos hsrc, if_pos hsrc, if_neg (by omega), Option.bind_some]
      by_cases hle : l.held src ≤ 1
      · rw [if_pos hle, if_pos (by omega)]
      · rw [if_neg hle, if_neg (by omega)]
    · simp [hsrc]
  · intro src
    rw [hheld]
    exact (Nat.sub_le _ _).trans (h.capped src)
  · exact h.clock
  · intro j s' hs' hr'
    simp only [List.getElem?_set, hi, if_true] at hs'
    split at hs'
    · cases hs'
      simp at hr'
    · rename_i hij
      exact h.latest j s' (Ne.symm hij) hs' hr'

theorem Sound.release (h : l.Sound) (i : Nat) : (l.release i).Sound := by
  unfold LinkLimiter.release
  cases hs : l.slots[i]? with
  | none => exact h
  | some s =>
    simp only
    split
    · exact h
    · rename_i hr
      have hr : s.released = false := by simpa using hr
      exact (h.unbook hs hr).drop hs hr

theorem Sound.touch (h : l.Sound) (i : Nat) : (l.touch i).Sound := by
  unfold LinkLimiter.touch
  cases hs : l.slots[i]? with
  | none => exact h
  | some s =>
    simp only
    split
    · exact h
    · rename_i hheld
      simp only [Bool.or_eq_true, decide_eq_true_eq, not_or, ne_eq, not_not,
        Bool.not_eq_true] at hheld
      obtain ⟨hr, ht⟩ := hheld
      refine (h.unbook hs hr).book hs hr ?_
      have hsize := OrdMap.size_delete (l.books s.tier) ((h.booked _ _ _).2 ⟨s, hs, hr, rfl, rfl⟩)
      have hmax := h.size s.tier
      simp only [LinkLimiter.unbook, ht, Function.update_self] at hsize hmax ⊢
      omega

theorem Sound.reenter (h : l.Sound) (r : Reentry) : (l.reenter r).Sound := by
  cases r with
  | release i => exact h.release i
  | touch i => exact h.touch i

end Keep

/-! ### Making room -/

/-- What calls from a callback leave of a limiter: its bounds, no tier fuller than before,
and slot `i` where it was. -/
structure Calls (i : Nat) (l l' : LinkLimiter σ) : Prop where
  max : l'.max = l.max
  size : ∀ t, (l'.books t).size ≤ (l.books t).size
  source : l'.maxPerSource = l.maxPerSource
  held : ∀ src, l'.held src ≤ l.held src
  kept : ∀ s, l.slots[i]? = some s → s.released = false →
    ∃ s', l'.slots[i]? = some s' ∧ s'.released = false ∧ s'.tier = s.tier

namespace Calls

variable {i : Nat} {l l' l'' : LinkLimiter σ}

theorem refl (i : Nat) (l : LinkLimiter σ) : Calls i l l :=
  ⟨rfl, fun _ => le_rfl, rfl, fun _ => le_rfl, fun s hs hr => ⟨s, hs, hr, rfl⟩⟩

theorem trans (h : Calls i l l') (h' : Calls i l' l'') : Calls i l l'' where
  max := h'.max.trans h.max
  size t := (h'.size t).trans (h.size t)
  source := h'.source.trans h.source
  held src := (h'.held src).trans (h.held src)
  kept s hs hr := by
    obtain ⟨s1, hs1, hr1, ht1⟩ := h.kept s hs hr
    obtain ⟨s2, hs2, hr2, ht2⟩ := h'.kept s1 hs1 hr1
    exact ⟨s2, hs2, hr2, ht2.trans ht1⟩

theorem release {j : Nat} (h : l.Sound) (hij : j ≠ i) : Calls i l (l.release j) := by
  unfold LinkLimiter.release
  cases hs : l.slots[j]? with
  | none => exact refl i l
  | some s =>
    simp only
    split
    · exact refl i l
    · rename_i hr
      have hr : s.released = false := by simpa using hr
      have hl := (h.unbook hs hr)
      refine ⟨rfl, fun t => ?_, rfl, fun src => ?_, fun s' hs' hr' => ⟨s', ?_, hr', rfl⟩⟩
      · simp only [unbook, Function.update_apply]
        split
        · rename_i ht
          subst ht
          have := OrdMap.size_delete (l.books s.tier) ((h.booked _ _ _).2 ⟨s, hs, hr, rfl, rfl⟩)
          omega
        · exact le_rfl
      · simp only [LinkLimiter.held]
        rw [held_set src _ hs]
        simp [hr]
      · simp [hij, hs']

theorem touch {j : Nat} (h : l.Sound) : Calls i l (l.touch j) := by
  unfold LinkLimiter.touch
  cases hs : l.slots[j]? with
  | none => exact refl i l
  | some s =>
    simp only
    split
    · exact refl i l
    · rename_i hheld
      simp only [Bool.or_eq_true, decide_eq_true_eq, not_or, ne_eq, not_not,
        Bool.not_eq_true] at hheld
      obtain ⟨hr, ht⟩ := hheld
      have hj : j < l.slots.length := (List.getElem?_eq_some_iff.1 hs).1
      refine ⟨rfl, fun t => ?_, rfl, fun src => ?_, fun s' hs' hr' => ?_⟩
      · have hsize := OrdMap.size_delete (l.books s.tier)
          ((h.booked _ _ _).2 ⟨s, hs, hr, rfl, rfl⟩)
        simp only [book, unbook, Function.update_apply, ht] at hsize ⊢
        split
        · rename_i ht'
          subst ht'
          have := OrdMap.size_set_le ((l.books .authed).delete s.bookId) l.nextId j
          simp only [if_true]
          omega
        · exact le_rfl
      · have hpos : s.source = some src → 0 < l.held src := fun hsrc => held_pos hs hsrc hr
        simp only [LinkLimiter.held, book, unbook] at hpos ⊢
        rw [held_set src _ hs]
        by_cases hsrc : s.source = some src
        · have := hpos hsrc
          simp only [hsrc, hr, and_self, if_true]
          omega
        · simp [hsrc]
      · simp only [book, unbook, List.getElem?_set]
        by_cases hij : j = i
        · subst hij
          rw [hs] at hs'
          cases hs'
          exact ⟨{ s with tier := .authed, bookId := l.nextId }, by simp [hj], hr, ht.symm⟩
        · exact ⟨s', by simp only [hij, if_false, hs'], hr', rfl⟩

theorem reenter {r : Reentry} (h : l.Sound) (hr : r ≠ .release i) : Calls i l (l.reenter r) := by
  cases r with
  | release j => exact release h fun hj => hr (by rw [hj])
  | touch j => exact touch h

/-- A callback's calls, one after another. -/
theorem callback {evict : List Reentry} (h : l.Sound) (hr : Reentry.release i ∉ evict) :
    (evict.foldl (fun l r => l.reenter r) l).Sound ∧
      Calls i l (evict.foldl (fun l r => l.reenter r) l) := by
  induction evict generalizing l with
  | nil => exact ⟨h, refl i l⟩
  | cons r evict ih =>
    simp only [List.mem_cons, not_or] at hr
    obtain ⟨h1, h2⟩ := ih (h.reenter r) hr.2
    exact ⟨h1, (reenter h (Ne.symm hr.1)).trans h2⟩

end Calls

/-- The victim holds a slot of the tier. -/
theorem Sound.victim {l : LinkLimiter σ} (h : l.Sound) {t : Tier} {v : Nat}
    (hv : l.victim t = some v) : ∃ s, l.slots[v]? = some s ∧ s.released = false ∧ s.tier = t := by
  unfold LinkLimiter.victim at hv
  split at hv
  · cases hv
  · obtain ⟨⟨b, i⟩, he, rfl⟩ := Option.map_eq_some_iff.1 hv
    have hmem : (b, i) ∈ (l.books t).entries := List.mem_of_head? he
    obtain ⟨s, hs, hr, ht, -⟩ := (h.booked t b i).1 ((OrdMap.get_eq_some _ _ _).2 hmem)
    exact ⟨s, hs, hr, ht⟩

@[simp] theorem makeRoom_false {l l' : LinkLimiter σ} {t : Tier} {evict : List Reentry}
    (h : l.makeRoom t evict = (false, l')) : l' = l := by
  unfold LinkLimiter.makeRoom at h
  split at h
  · cases h
  · split at h <;> cases h
    rfl

/-- Room is made by an eviction, and what the callback does keeps it. -/
theorem Sound.makeRoom {l l' : LinkLimiter σ} (h : l.Sound) {t : Tier} {evict : List Reentry}
    {i : Nat} (hr : Reentry.release i ∉ evict)
    (hi : ∀ s, l.slots[i]? = some s → s.released = false → s.tier ≠ t)
    (hroom : l.makeRoom t evict = (true, l')) :
    l'.Sound ∧ Calls i l l' ∧ (l'.books t).size < l'.max t := by
  unfold LinkLimiter.makeRoom at hroom
  split at hroom
  · cases hroom
    exact ⟨h, .refl i l, by assumption⟩
  · rename_i hfull
    split at hroom
    · cases hroom
    · rename_i v hv
      cases hroom
      obtain ⟨s, hs, hrel, ht⟩ := h.victim hv
      have hvi : v ≠ i := by
        rintro rfl
        exact hi s hs hrel ht
      have h1 := h.release v
      have hc1 := Calls.release h hvi
      obtain ⟨h2, hc2⟩ := Calls.callback h1 hr
      refine ⟨h2, hc1.trans hc2, ?_⟩
      have hsize : ((l.release v).books t).size + 1 = (l.books t).size := by
        subst ht
        have := OrdMap.size_delete (l.books s.tier) ((h.booked _ _ _).2 ⟨s, hs, hrel, rfl, rfl⟩)
        simpa [LinkLimiter.release, hs, hrel, LinkLimiter.unbook] using this
      have hle := hc2.size t
      have hmax : (evict.foldl (fun l r => l.reenter r) (l.release v)).max = l.max :=
        hc2.max.trans hc1.max
      have := h.size t
      rw [hmax]
      omega

theorem Sound.move {l : LinkLimiter σ} (h : l.Sound) {i : Nat} {t : Tier} {evict : List Reentry}
    (hr : Reentry.release i ∉ evict) : (l.move i t evict).2.Sound := by
  unfold LinkLimiter.move
  cases hs : l.slots[i]? with
  | none => exact h
  | some s =>
    simp only
    split
    · exact h
    · rename_i hmoves
      simp only [Bool.or_eq_true, decide_eq_true_eq, not_or, Bool.not_eq_true] at hmoves
      obtain ⟨hrel, ht⟩ := hmoves
      rcases hroom : l.makeRoom t evict with ⟨ok, l'⟩
      cases ok with
      | false => rw [makeRoom_false hroom]; exact h
      | true =>
        have hi : ∀ s', l.slots[i]? = some s' → s'.released = false → s'.tier ≠ t := by
          intro s' hs' _
          rw [hs] at hs'
          cases hs'
          exact ht
        obtain ⟨h', hc, hsize⟩ := h.makeRoom hr hi hroom
        obtain ⟨s', hs', hrel', ht'⟩ := hc.kept s hs hrel
        simp only [hs']
        refine (h'.unbook hs' hrel').book hs' hrel' ?_
        have hne : t ≠ s'.tier := fun heq => ht (ht'.symm.trans heq.symm)
        simpa [LinkLimiter.unbook, hne] using hsize

/-- A new slot is one more of its source. -/
theorem Sound.newcomer {l : LinkLimiter σ} (h : l.Sound) {source : Option σ}
    (hroom : ∀ src, source = some src → l.held src < l.maxPerSource) :
    Loose l.slots.length { l with
      slots := l.slots ++ [⟨source, .unverified, false, l.nextId⟩]
      perSource := count source l.perSource } := by
  have hheld : ∀ src, held src { l with
      slots := l.slots ++ [⟨source, .unverified, false, l.nextId⟩]
      perSource := count source l.perSource } =
      l.held src + if source = some src then 1 else 0 := by
    intro src
    simp [held, List.countP_append, List.countP_singleton]
  have hold : ∀ j, j ≠ l.slots.length →
      (l.slots ++ [(⟨source, .unverified, false, l.nextId⟩ : Booking σ)])[j]? = l.slots[j]? := by
    intro j hj
    rcases Nat.lt_or_ge j l.slots.length with hlt | hge
    · exact List.getElem?_append_left hlt
    · rw [List.getElem?_eq_none hge, List.getElem?_eq_none (by simp; omega)]
  constructor
  · intro t b j
    rw [h.booked]
    constructor
    · rintro ⟨s, hs, hrest⟩
      have hj : j < l.slots.length := (List.getElem?_eq_some_iff.1 hs).1
      exact ⟨by omega, s, by rw [hold j (by omega)]; exact hs, hrest⟩
    · rintro ⟨hj, s, hs, hrest⟩
      rw [hold j hj] at hs
      exact ⟨s, hs, hrest⟩
  · exact h.sorted
  · exact h.size
  · intro src
    rw [hheld]
    cases source with
    | none => simpa [count] using h.counted src
    | some src' =>
      simp only [count, OrdMap.get_set]
      by_cases hsrc : src = src'
      · subst hsrc
        simp only [if_true, h.counted src]
        split <;> simp_all
      · simpa [hsrc, Ne.symm hsrc] using h.counted src
  · intro src
    rw [hheld]
    have hcap := h.capped src
    split
    · rename_i hsrc
      exact hroom src hsrc
    · exact hcap
  · exact h.clock
  · intro j s hj hs hr
    rw [hold j hj] at hs
    exact h.latest j s hs hr

/-- Some slot past `n` is not among those a callback releases. -/
theorem exists_unreleased (n : Nat) (evict : List Reentry) :
    ∃ i, n ≤ i ∧ Reentry.release i ∉ evict := by
  by_contra hno
  push_neg at hno
  have hinj : Function.Injective fun k => Reentry.release (n + k) := by
    intro a b hab
    simpa using hab
  refine (Set.infinite_range_of_injective hinj) (evict.finite_toSet.subset ?_)
  rintro _ ⟨k, rfl⟩
  exact hno (n + k) (by omega)

theorem Sound.acquire {l : LinkLimiter σ} (h : l.Sound) (source : Option σ)
    (evict : List Reentry) : (l.acquire source evict).2.Sound := by
  unfold LinkLimiter.acquire
  split
  · exact h
  · rename_i hcrowd
    rcases hroom : l.makeRoom .unverified evict with ⟨ok, l'⟩
    cases ok with
    | false => rw [makeRoom_false hroom]; exact h
    | true =>
      obtain ⟨i, hlen, hr⟩ := exists_unreleased l.slots.length evict
      have hnone : l.slots[i]? = none := List.getElem?_eq_none hlen
      obtain ⟨h', hc, hsize⟩ := h.makeRoom hr (fun s hs => by simp [hnone] at hs) hroom
      simp only
      refine (h'.newcomer fun src hsrc => ?_).book (by simp) rfl hsize
      subst hsrc
      have hle := hc.held src
      have hcount := h.counted src
      simp only [crowded, decide_eq_true_eq, not_le] at hcrowd
      rw [hc.source]
      refine hle.trans_lt (lt_of_eq_of_lt ?_ hcrowd)
      rw [hcount]
      split <;> simp_all

theorem Sound.step {l : LinkLimiter σ} (h : l.Sound) {op : Op σ} (ho : op.Apart) :
    (l.step op).Sound := by
  cases op with
  | acquire source evict => exact h.acquire source evict
  | promote i evict => exact h.move ho
  | hold i evict => exact h.move ho
  | touch i => exact h.touch i
  | release i => exact h.release i

theorem Sound.run {l : LinkLimiter σ} (h : l.Sound) {ops : List (Op σ)}
    (ho : ∀ op ∈ ops, op.Apart) : (l.run ops).Sound := by
  induction ops generalizing l with
  | nil => exact h
  | cons op ops ih =>
    exact ih (h.step (ho op (by simp))) fun op' hop => ho op' (by simp [hop])

/-! ### The bounds stay what they were -/

/-- A limiter whose books, counts and evictions are in order. -/
structure Orderly (maxPerSource : Nat) (max : Tier → Nat) (l : LinkLimiter σ) : Prop where
  /-- A slot held is in the book of its tier, under its `bookId`, and nowhere else; one
  released is nowhere. -/
  booked : ∀ i s, l.slots[i]? = some s → ∀ t b,
    (l.books t).get b = some i ↔ s.released = false ∧ t = s.tier ∧ b = s.bookId
  /-- The books hold nothing else. -/
  slots : ∀ t b i, (l.books t).get b = some i → i < l.slots.length
  size : ∀ t, (l.books t).size ≤ max t
  counted : ∀ src, l.perSource.get src = if l.held src = 0 then none else some (l.held src)
  capped : ∀ src, l.held src ≤ maxPerSource
  /-- A full tier sheds the slot whose last booking is oldest. -/
  oldest : ∀ t v, l.victim t = some v →
    (∃ s, l.slots[v]? = some s ∧ s.released = false ∧ s.tier = t) ∧
    ∀ i s, l.slots[i]? = some s → s.released = false → s.tier = t → i ≠ v →
      ∃ b b', Latest l.bookings v b ∧ Latest l.bookings i b' ∧ b < b'

/-- The first of a book is the one booked first. -/
theorem Sound.oldest {l : LinkLimiter σ} (h : l.Sound) {t : Tier} {v i : Nat} {s : Booking σ}
    (hv : l.victim t = some v) (hs : l.slots[i]? = some s) (hr : s.released = false)
    (ht : s.tier = t) (hne : i ≠ v) :
    ∃ b b', Latest l.bookings v b ∧ Latest l.bookings i b' ∧ b < b' := by
  unfold LinkLimiter.victim at hv
  split at hv
  · cases hv
  · obtain ⟨⟨b, j⟩, he, rfl⟩ := Option.map_eq_some_iff.1 hv
    simp only at hne
    obtain ⟨es, hes⟩ : ∃ es, (l.books t).entries = (b, j) :: es := List.head?_eq_some_iff.1 he
    have hmem : (b, j) ∈ (l.books t).entries := by simp [hes]
    obtain ⟨sv, hsv, hrv, -, hbv⟩ := (h.booked t b j).1 ((OrdMap.get_eq_some _ _ _).2 hmem)
    have hi : (s.bookId, i) ∈ (l.books t).entries :=
      (OrdMap.get_eq_some _ _ _).1 ((h.booked t s.bookId i).2 ⟨s, hs, hr, ht, rfl⟩)
    have hsorted := h.sorted t
    rw [OrdMap.keys, hes, List.map_cons, List.pairwise_cons] at hsorted
    refine ⟨b, s.bookId, hbv ▸ h.latest j sv hsv hrv, h.latest i s hs hr, ?_⟩
    rw [hes, List.mem_cons, Prod.mk.injEq] at hi
    rcases hi with ⟨-, hij⟩ | hi
    · exact absurd hij hne
    · exact hsorted.1 _ (List.mem_map_of_mem hi)

end LinkLimiter

end SeedTransport
