import Mathlib

set_option autoImplicit false

/-! Sets of numbers as the list of their maximal runs, `(largest, smallest)`, newest first. -/

namespace Runs

/-- Every run goes up, and between one and the next older at least one number is missing. -/
structure Descending (rs : List (Nat × Nat)) : Prop where
  ordered : ∀ r ∈ rs, r.2 ≤ r.1
  apart : rs.Pairwise (fun a b => b.1 + 1 < a.2)

/-- The numbers in the runs. -/
def denoted (rs : List (Nat × Nat)) : Set Nat := {x | ∃ r ∈ rs, r.2 ≤ x ∧ x ≤ r.1}

/-- The tops of maximal runs of `S` that are not below `x`. -/
def topsFrom (S : Set Nat) (x : Nat) : Set Nat := {t | t ∈ S ∧ t + 1 ∉ S ∧ x ≤ t}

/-- The numbers of `S` in its `n` newest maximal runs. -/
def newest (n : Nat) (S : Set Nat) : Set Nat := {x | x ∈ S ∧ (topsFrom S x).encard ≤ n}

theorem Descending.nil : Descending [] := ⟨nofun, .nil⟩

theorem Descending.cons {r : Nat × Nat} {rest : List (Nat × Nat)} (h : Descending rest) (hr : r.2 ≤ r.1)
    (ha : ∀ q ∈ rest, q.1 + 1 < r.2) : Descending (r :: rest) where
  ordered := List.forall_mem_cons.mpr ⟨hr, h.ordered⟩
  apart := List.pairwise_cons.mpr ⟨ha, h.apart⟩

theorem Descending.tail {r : Nat × Nat} {rest : List (Nat × Nat)} (h : Descending (r :: rest)) : Descending rest :=
  ⟨fun q hq => h.ordered q (List.mem_cons_of_mem _ hq), (List.pairwise_cons.mp h.apart).2⟩

theorem Descending.head {r : Nat × Nat} {rest : List (Nat × Nat)} (h : Descending (r :: rest)) :
    r.2 ≤ r.1 ∧ ∀ q ∈ rest, q.1 + 1 < r.2 :=
  ⟨h.ordered r List.mem_cons_self, (List.pairwise_cons.mp h.apart).1⟩

theorem Descending.sublist {rs ranges : List (Nat × Nat)} (h : Descending ranges) (hs : rs.Sublist ranges) :
    Descending rs :=
  ⟨fun r hr => h.ordered r (hs.subset hr), h.apart.sublist hs⟩

theorem denoted_nil : denoted [] = ∅ := by
  simp [denoted]

theorem mem_denoted_cons {r : Nat × Nat} {rest : List (Nat × Nat)} {x : Nat} :
    x ∈ denoted (r :: rest) ↔ (r.2 ≤ x ∧ x ≤ r.1) ∨ x ∈ denoted rest := by
  simp [denoted]

/-- All that is older than the newest run lies below it. -/
theorem Descending.below {r : Nat × Nat} {rest : List (Nat × Nat)} (h : Descending (r :: rest)) {x : Nat}
    (hx : x ∈ denoted rest) : x + 1 < r.2 := by
  obtain ⟨q, hq, hx⟩ := hx
  have := h.head.2 q hq
  omega

/-- The newest run has one top, and the older runs keep theirs. -/
theorem topsFrom_cons {r : Nat × Nat} {rest : List (Nat × Nat)} (h : Descending (r :: rest)) {x : Nat} (hx : x ≤ r.1) :
    topsFrom (denoted (r :: rest)) x = insert r.1 (topsFrom (denoted rest) x) := by
  have hr := h.head.1
  ext t
  simp only [topsFrom, Set.mem_ofPred_eq, Set.mem_insert_iff, mem_denoted_cons, not_or]
  constructor
  · rintro ⟨ht | ht, ⟨hnext, hrest⟩, hle⟩
    · exact Or.inl (by omega)
    · exact Or.inr ⟨ht, hrest, hle⟩
  · rintro (rfl | ⟨ht, hnext, hle⟩)
    · refine ⟨Or.inl (by omega), ⟨by omega, fun hn => ?_⟩, hx⟩
      have := h.below hn
      omega
    · have := h.below ht
      exact ⟨Or.inr ht, ⟨by omega, hnext⟩, hle⟩

theorem topsFrom_older {r : Nat × Nat} {rest : List (Nat × Nat)} (h : Descending (r :: rest)) {x : Nat} (hx : r.2 ≤ x) :
    topsFrom (denoted rest) x = ∅ := by
  ext t
  simp only [topsFrom, Set.mem_ofPred_eq, Set.mem_empty_iff_false, iff_false, not_and]
  intro ht _
  have := h.below ht
  omega

/-- Keeping the first `n` runs keeps the `n` newest maximal runs. -/
theorem denoted_take {rs : List (Nat × Nat)} (h : Descending rs) (n : Nat) :
    denoted (rs.take n) = newest n (denoted rs) := by
  induction rs generalizing n with
  | nil => simp [denoted_nil, newest]
  | cons r rest ih =>
    have hr := h.head.1
    have hnot (x : Nat) : r.1 ∉ topsFrom (denoted rest) x := fun hm => by
      have := h.below hm.1
      omega
    cases n with
    | zero =>
      ext x
      simp only [List.take_zero, denoted_nil, Set.mem_empty_iff_false, newest, Set.mem_ofPred_eq, false_iff, not_and]
      intro hx hcard
      have hle : x ≤ r.1 := by
        rcases mem_denoted_cons.mp hx with hx | hx
        · exact hx.2
        · have := h.below hx
          omega
      rw [topsFrom_cons h hle] at hcard
      have hempty := Set.encard_eq_zero.mp (nonpos_iff_eq_zero.mp hcard)
      exact (Set.insert_nonempty _ _).ne_empty hempty
    | succ n =>
      ext x
      rw [List.take_succ_cons, mem_denoted_cons, ih h.tail n]
      simp only [newest, Set.mem_ofPred_eq, mem_denoted_cons]
      constructor
      · rintro (hx | ⟨hx, hcard⟩)
        · refine ⟨Or.inl hx, ?_⟩
          rw [topsFrom_cons h hx.2, topsFrom_older h hx.1, Set.encard_insert_of_notMem (by simp), Set.encard_empty]
          simp
        · have := h.below hx
          refine ⟨Or.inr hx, ?_⟩
          rw [topsFrom_cons h (by omega), Set.encard_insert_of_notMem (hnot x)]
          push_cast
          gcongr
      · rintro ⟨hx | hx, hcard⟩
        · exact Or.inl hx
        · have := h.below hx
          rw [topsFrom_cons h (by omega), Set.encard_insert_of_notMem (hnot x)] at hcard
          push_cast at hcard
          exact Or.inr ⟨hx, (ENat.add_le_add_iff_right ENat.one_ne_top).mp hcard⟩

end Runs
