import Mathlib

set_option autoImplicit false

/-! Two ends of a stream whose items name their places. The writer never goes back, but may leave places out;
the reader takes an item only where it stands itself. Then what was read is a prefix of what was written. -/

namespace Lockstep

variable {α γ : Type} {next : α → α} {place : γ → α} {p : α}

/-- A reader's items stand one behind the other, from `p` on. -/
def Seamless (next : α → α) (place : γ → α) : α → List γ → Prop
  | _, [] => True
  | p, x :: xs => place x = p ∧ Seamless next place (next p) xs

/-- Where a reader stands after `items`. -/
def after (next : α → α) (p : α) (items : List γ) : α := next^[items.length] p

theorem seamless_concat {items : List γ} {x : γ} (h : Seamless next place p items)
    (hx : place x = after next p items) : Seamless next place p (items ++ [x]) := by
  induction items generalizing p with
  | nil => exact ⟨hx, trivial⟩
  | cons y ys ih =>
    refine ⟨h.1, ih h.2 ?_⟩
    rw [hx]
    simp [after]

theorem Seamless.of_concat {items : List γ} {x : γ} (h : Seamless next place p (items ++ [x])) :
    Seamless next place p items ∧ place x = after next p items := by
  induction items generalizing p with
  | nil => exact ⟨trivial, h.1⟩
  | cons y ys ih =>
    obtain ⟨hys, hx⟩ := ih h.2
    refine ⟨⟨h.1, hys⟩, hx.trans ?_⟩
    simp [after]

theorem after_concat (items : List γ) (x : γ) : after next p (items ++ [x]) = next (after next p items) := by
  unfold after
  rw [List.length_append, List.length_singleton, Function.iterate_succ_apply']

variable [LinearOrder α]

/-- Every item of a writer stands past its forerunners. -/
def Forward (next : α → α) (place : γ → α) (items : List γ) : Prop :=
  items.Pairwise fun x y => next (place x) ≤ place y

theorem forward_concat {items : List γ} {x : γ} (h : Forward next place items)
    (hx : ∀ y ∈ items, next (place y) ≤ place x) : Forward next place (items ++ [x]) := by
  refine List.pairwise_append.mpr ⟨h, List.pairwise_singleton _ _, fun y hy z hz => ?_⟩
  rw [List.mem_singleton.mp hz]
  exact hx y hy

theorem Seamless.le (hlt : ∀ a, a < next a) {items : List γ} (h : Seamless next place p items) :
    ∀ x ∈ items, p ≤ place x := by
  induction items generalizing p with
  | nil => exact List.forall_mem_nil _
  | cons y ys ih =>
    refine List.forall_mem_cons.mpr ⟨h.1.ge, fun x hx => ?_⟩
    exact (hlt p).le.trans (ih h.2 x hx)

/-- A reader that takes nothing but what was written, each item where it stands itself, has read a prefix of it. -/
theorem Seamless.isPrefix (hlt : ∀ a, a < next a) {read written : List γ} (hr : Seamless next place p read)
    (hw : Forward next place written) (hp : ∀ y ∈ written, p ≤ place y) (hfrom : ∀ x ∈ read, x ∈ written) :
    read <+: written := by
  induction read generalizing p written with
  | nil => exact List.nil_prefix
  | cons x xs ih =>
    obtain ⟨rfl, hrest⟩ := hr
    cases written with
    | nil => exact absurd (hfrom x List.mem_cons_self) List.not_mem_nil
    | cons y ys =>
      obtain ⟨hy, hys⟩ := List.pairwise_cons.mp hw
      -- An item further on would stand past the reader's place.
      have hxy : x = y := by
        refine (List.mem_cons.mp (hfrom x List.mem_cons_self)).resolve_right fun hx => ?_
        have hle := hp y List.mem_cons_self
        exact absurd ((hlt _).trans_le (hy x hx)) (not_lt.mpr hle)
      subst hxy
      refine (List.cons_prefix_cons).mpr ⟨rfl, ih hrest hys hy fun z hz => ?_⟩
      refine (List.mem_cons.mp (hfrom z (List.mem_cons_of_mem _ hz))).resolve_left fun he => ?_
      have hle := hrest.le hlt z hz
      rw [he] at hle
      exact absurd (hlt (place x)) (not_lt.mpr hle)

end Lockstep
