import Mathlib

set_option autoImplicit false

/-! Parsers that are fed a stream piece by piece: they take items off the front while whole ones are
there, and may refuse. Where a verdict does not change as more comes, the pieces do not matter. -/

namespace Incremental

variable {σ α β : Type}

/-- What a parser says of the bytes at the front. -/
inductive Verdict (σ α : Type) where
  /-- Nothing whole is there yet. -/
  | more
  /-- `n` bytes are taken, and no more is read. -/
  | refuse (next : σ) (n : Nat)
  /-- `n` bytes are an item. -/
  | item (out : List α) (next : σ) (n : Nat)

/-- Where a parser came to. -/
structure Result (σ α β : Type) where
  out : List α
  state : σ
  rest : List β
  ok : Bool

/-- A verdict stands whatever comes after, and an item takes something. -/
structure Steady (step : σ → List β → Verdict σ α) : Prop where
  item : ∀ {s bs out s' n}, step s bs = .item out s' n →
    0 < n ∧ n ≤ bs.length ∧ ∀ cs, step s (bs ++ cs) = .item out s' n
  refuse : ∀ {s bs s' n}, step s bs = .refuse s' n →
    n ≤ bs.length ∧ ∀ cs, step s (bs ++ cs) = .refuse s' n

variable (step : σ → List β → Verdict σ α)

/-- Items are taken while they are whole, `fuel` of them at most. -/
def run : Nat → σ → List β → Result σ α β
  | 0, s, bs => ⟨[], s, bs, true⟩
  | fuel + 1, s, bs =>
    match step s bs with
    | .more => ⟨[], s, bs, true⟩
    | .refuse s' n => ⟨[], s', bs.drop n, false⟩
    | .item out s' n =>
      let r := run fuel s' (bs.drop n)
      { r with out := out ++ r.out }

/-- An item takes a byte at least, so there are no more items than bytes. -/
def parse (s : σ) (bs : List β) : Result σ α β := run step (bs.length + 1) s bs

/-- The stream piece by piece, up to a refusal. -/
def feed : σ → List β → List (List β) → Result σ α β
  | s, rest, [] => ⟨[], s, rest, true⟩
  | s, rest, c :: cs =>
    let r := parse step s (rest ++ c)
    if r.ok then
      let r' := feed r.state r.rest cs
      { r' with out := r.out ++ r'.out }
    else r

variable {step} (hs : Steady step)
include hs

theorem run_fuel {fuel fuel' : Nat} {s : σ} {bs : List β} (h : bs.length < fuel) (h' : bs.length < fuel') :
    run step fuel s bs = run step fuel' s bs := by
  induction fuel generalizing fuel' s bs with
  | zero => omega
  | succ fuel ih =>
    obtain ⟨k, rfl⟩ : ∃ k, fuel' = k + 1 := ⟨fuel' - 1, by omega⟩
    unfold run
    cases hv : step s bs with
    | more => rfl
    | refuse s' n => rfl
    | item out s' n =>
      obtain ⟨hpos, hn, -⟩ := hs.item hv
      have hdrop : (bs.drop n).length < fuel := by rw [List.length_drop]; omega
      have hdrop' : (bs.drop n).length < k := by rw [List.length_drop]; omega
      dsimp only
      rw [ih hdrop hdrop']

/-- One turn of the loop. -/
theorem parse_step (s : σ) (bs : List β) : parse step s bs = match step s bs with
    | .more => ⟨[], s, bs, true⟩
    | .refuse s' n => ⟨[], s', bs.drop n, false⟩
    | .item out s' n =>
      let r := parse step s' (bs.drop n)
      { r with out := out ++ r.out } := by
  unfold parse
  rw [run]
  cases hv : step s bs with
  | more => rfl
  | refuse s' n => rfl
  | item out s' n =>
    obtain ⟨hpos, hn, -⟩ := hs.item hv
    have hdrop : (bs.drop n).length < bs.length := by rw [List.length_drop]; omega
    dsimp only
    rw [run_fuel hs hdrop (Nat.lt_succ_self _)]

/-- The loop by the items it takes. -/
theorem parse_induction {motive : σ → List β → Prop}
    (more : ∀ s bs, step s bs = .more → motive s bs)
    (refuse : ∀ s bs s' n, step s bs = .refuse s' n → motive s bs)
    (item : ∀ s bs out s' n, step s bs = .item out s' n → motive s' (bs.drop n) → motive s bs)
    (s : σ) (bs : List β) : motive s bs := by
  generalize hlen : bs.length = len
  induction len using Nat.strong_induction_on generalizing s bs with
  | _ len ih =>
    cases hv : step s bs with
    | more => exact more s bs hv
    | refuse s' n => exact refuse s bs s' n hv
    | item out s' n =>
      obtain ⟨hpos, hn, -⟩ := hs.item hv
      exact item s bs out s' n hv (ih _ (by rw [List.length_drop]; omega) s' (bs.drop n) rfl)

/-- What a parser comes to waits for more. -/
theorem parse_waits (s : σ) (bs : List β) (hok : (parse step s bs).ok = true) :
    step (parse step s bs).state (parse step s bs).rest = .more := by
  induction s, bs using parse_induction hs with
  | more s bs hv =>
    rw [parse_step hs, hv]
    exact hv
  | refuse s bs s' n hv =>
    rw [parse_step hs, hv] at hok
    cases hok
  | item s bs out s' n hv ih =>
    rw [parse_step hs, hv] at hok ⊢
    exact ih hok

/-- More bytes go on where the first came to, and a refusal stands. -/
theorem parse_append (s : σ) (bs cs : List β) : parse step s (bs ++ cs) =
    (let r := parse step s bs
    if r.ok then
      let r' := parse step r.state (r.rest ++ cs)
      { r' with out := r.out ++ r'.out }
    else { r with rest := r.rest ++ cs }) := by
  induction s, bs using parse_induction hs with
  | more s bs hv =>
    rw [parse_step hs s bs, hv]
    simp
  | refuse s bs s' n hv =>
    obtain ⟨hn, hcs⟩ := hs.refuse hv
    rw [parse_step hs s bs, hv, parse_step hs, hcs cs]
    simp [List.drop_append_of_le_length hn]
  | item s bs out s' n hv ih =>
    obtain ⟨-, hn, hcs⟩ := hs.item hv
    rw [parse_step hs s bs, hv, parse_step hs, hcs cs]
    dsimp only
    rw [List.drop_append_of_le_length hn, ih]
    dsimp only
    split <;> simp [List.append_assoc]

/-- The pieces of a stream do not matter: what is taken and whether it is refused are the whole
stream's, and so is what is left where it is not refused. -/
theorem feed_eq (s : σ) (rest : List β) (cs : List (List β)) (hw : step s rest = .more) :
    (feed step s rest cs).out = (parse step s (rest ++ cs.flatten)).out ∧
    (feed step s rest cs).ok = (parse step s (rest ++ cs.flatten)).ok ∧
    (feed step s rest cs).state = (parse step s (rest ++ cs.flatten)).state ∧
    ((feed step s rest cs).ok = true →
      (feed step s rest cs).rest = (parse step s (rest ++ cs.flatten)).rest) ∧
    ∃ later, (feed step s rest cs).rest ++ later = (parse step s (rest ++ cs.flatten)).rest := by
  induction cs generalizing s rest with
  | nil =>
    rw [List.flatten_nil, List.append_nil, parse_step hs, hw]
    exact ⟨rfl, rfl, rfl, fun _ => rfl, [], List.append_nil _⟩
  | cons c cs ih =>
    rw [List.flatten_cons, ← List.append_assoc, parse_append hs]
    unfold feed
    dsimp only
    cases hok : (parse step s (rest ++ c)).ok with
    | true =>
      obtain ⟨hout, hokr, hstate, hrest, hlater⟩ := ih _ _ (parse_waits hs s (rest ++ c) hok)
      simp only [if_true]
      exact ⟨by rw [hout], hokr, hstate, hrest, hlater⟩
    | false =>
      rw [if_neg (by decide), if_neg (by decide)]
      exact ⟨rfl, hok, rfl, fun h => absurd (hok.symm.trans h) Bool.false_ne_true, _, rfl⟩

end Incremental
