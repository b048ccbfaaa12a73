import SeedTransport.Link.Acts

set_option autoImplicit false

namespace SeedTransport

/-! The end of a link: whom it tells, and what it leaves behind. -/

open Async Async.Prog

namespace Link

/-! ### Whom an end tells -/

/-- The slots a link holds. -/
def held : Option Slot → Nat
  | some s => if s.released then 0 else 1
  | none => 0

/-- The owner hears of the end once; of the `n` slots the link was given, what it does not
hold any more was released once. -/
structure Tally (n : Nat) (l : Link) : Prop where
  onClose : l.effects.count .onClose = if l.closed then 1 else 0
  slots : l.effects.count .releaseSlot + held l.slot = n

section Tally

variable {n : Nat} {l l' : Link}

theorem Tally.of_same (h : Tally n l) (he : l'.effects = l.effects) (hc : l'.closed = l.closed)
    (hs : l'.slot = l.slot) : Tally n l' :=
  ⟨by rw [he, hc]; exact h.onClose, by rw [he, hs]; exact h.slots⟩

theorem Tally.endLink (h : Tally n l) (farewell defensive : Bool) :
    Tally n (l.endLink farewell defensive) := by
  have hc := h.onClose
  have hs := h.slots
  unfold Link.endLink
  split
  · split
    · exact h.of_same rfl rfl rfl
    · exact h.of_same rfl rfl rfl
  · rename_i hopen
    simp only [hopen] at hc
    refine ⟨?_, ?_⟩
    · simp [enqueue, noteEnd, List.count_append, hc]
    · simpa [enqueue, noteEnd, List.count_append] using hs

theorem Tally.stall (h : Tally n l) : Tally n l.stall := by
  unfold Link.stall
  split
  · exact h
  · exact h.of_same rfl rfl rfl

theorem Tally.moveTier (h : Tally n l) (tier : Tier) (max : Nat) : Tally n (l.moveTier tier max) := by
  refine ⟨h.onClose, ?_⟩
  have hs := h.slots
  simp only [Link.moveTier]
  cases hslot : l.slot with
  | none => simpa [hslot] using hs
  | some s =>
    simp only [hslot, Option.map_some] at hs ⊢
    split
    · exact hs
    · exact hs

/-- A slot that is given back is not held. -/
theorem teardown_slots (l : Link) :
    l.teardown.slot = none ∧ l.teardown.closed = l.closed ∧ l.teardown.work = l.work ∧
      l.teardown.effects.count .releaseSlot = l.effects.count .releaseSlot + held l.slot ∧
      l.teardown.effects.count .onClose = l.effects.count .onClose := by
  simp only [teardown, clearEphemeral, releaseSlot]
  cases hslot : l.slot with
  | none => simp [hslot, held]
  | some s => cases hr : s.released <;> simp [hr, held, List.count_append]

theorem Tally.teardown (h : Tally n l) : Tally n l.teardown := by
  obtain ⟨h1, h2, -, h4, h5⟩ := teardown_slots l
  refine ⟨by rw [h5, h2]; exact h.onClose, ?_⟩
  rw [h4, h1]
  exact h.slots

theorem Tally.loseSlot (h : Tally n l) : Tally n l.loseSlot := by
  have hs := h.slots
  unfold Link.loseSlot
  split
  · exact h
  · rename_i s hslot
    rw [hslot] at hs
    refine ⟨?_, ?_⟩
    · have hc := h.onClose
      cases hr : s.released <;> simpa [hr, List.count_append] using hc
    · cases hr : s.released <;> simpa [hr, held, List.count_append] using hs

theorem Tally.outside (h : Tally n l) {i : Input} (ho : Outside i l l') : Tally n l' := by
  have same : ∀ {l₁ : Link} {o : Outer}, l₁.outer = o → o.effects = l.effects →
      o.closed = l.closed → o.slot = l.slot → Tally n l₁ := by
    rintro l₁ o rfl h1 h2 h3
    exact h.of_same h1 h2 h3
  cases ho with
  | quiet i probes ho => exact same ho rfl rfl rfl
  | message i m => exact h.of_same rfl rfl rfl
  | record frame _ _ _ ho => exact same ho rfl rfl rfl
  | queued frame q _ _ _ _ ho => exact same ho rfl rfl rfl
  | ends i farewell defensive ho => exact (same ho rfl rfl rfl).endLink farewell defensive
  | evicted => exact h.loseSlot.endLink false false
  | stalls i _ => exact h.stall
  | lost hopen =>
    have hc := h.onClose
    obtain ⟨h1, h2, -, h4, h5⟩ := teardown_slots (noteEnd .lost { l with closed := true })
    have hs := h.slots
    simp only [onChannelClosed, hopen, Bool.false_eq_true, if_false]
    refine ⟨?_, ?_⟩
    · simp only [List.count_append, h5, h2]
      simp [noteEnd, hc, hopen]
    · simp only [List.count_append, h4, h1]
      simpa [noteEnd, held] using hs
  | handsOn => exact h.of_same rfl rfl rfl

end Tally

/-- A closed link gives its slot back, or will. -/
def Bound (l : Link) : Prop := l.closed = true → l.slot = none ∨ Job.farewell ∈ l.work

section Bound

variable {l l' : Link}

theorem endLink_bound (farewell defensive : Bool) (h : Bound l) : Bound (l.endLink farewell defensive) := by
  unfold endLink
  split
  · split
    · exact h
    · exact h
  · exact fun _ => .inr (by simp [enqueue])

theorem Bound.outside (h : Bound l) {i : Input} (ho : Outside i l l') : Bound l' := by
  have same : ∀ {l₁ : Link} {o : Outer}, l₁.outer = o → o.closed = l.closed → o.slot = l.slot →
      l.work <+: o.work → Bound l₁ := by
    rintro l₁ o rfl h1 h2 h3 hc
    refine (h (h1.symm.trans hc)).imp (fun hs => h2.trans hs) fun hf => h3.subset hf
  cases ho with
  | quiet i probes ho => exact same ho rfl rfl (List.prefix_refl _)
  | message i m => exact same rfl rfl rfl (List.prefix_append _ _)
  | record frame _ _ _ ho => exact same ho rfl rfl (List.prefix_append _ _)
  | queued frame q _ _ _ _ ho => exact same ho rfl rfl (List.prefix_refl _)
  | ends i farewell defensive ho =>
    exact endLink_bound _ _ (same ho rfl rfl (List.prefix_refl _))
  | evicted =>
    refine endLink_bound _ _ fun hc => ?_
    unfold loseSlot at hc ⊢
    split at hc
    · exact h hc
    · rename_i s hslot
      exact (h hc).imp (fun hn => by rw [hslot] at hn; cases hn) id
  | stalls i _ =>
    unfold stall
    split
    · exact h
    · exact h
  | lost hopen =>
    simp only [onChannelClosed, hopen, Bool.false_eq_true, if_false]
    exact fun _ => .inl (teardown_slots _).1
  | handsOn => exact h

end Bound

/-- What every move from outside keeps of the two. -/
def Told (n : Nat) (l l' : Link) : Prop := (Tally n l → Tally n l') ∧ (Bound l → Bound l')

theorem tally_records (n : Nat) : Records (Told n) (fun _ => Tally n) (Tally n) where
  rely _ _ hr := hr.1
  yields _ _ h := h.of_same rfl rfl rfl
  quiet l l' ho h := h.of_same (congrArg Outer.effects ho) (congrArg Outer.closed ho)
    (congrArg Outer.slot ho)
  ends _ _ _ h := h.endLink _ _
  stalls _ h := h.stall
  tiers _ _ _ h := h.moveTier _ _
  remembers _ _ _ h := h.of_same rfl rfl rfl
  auths _ _ h := h.of_same rfl rfl rfl
  takes _ h := h.of_same rfl rfl rfl
  sends _ _ _ h := h.of_same rfl rfl rfl
  tells _ _ h := h.of_same rfl rfl rfl
  frees _ _ h := h.of_same rfl rfl rfl
  parts _ h := h.of_same rfl rfl rfl

theorem Bound.of_same {l l' : Link} (h : Bound l) (hc : l'.closed = l.closed)
    (hs : l'.slot = l.slot) (hw : l'.work = l.work) : Bound l' := by
  unfold Bound
  rw [hc, hs, hw]
  exact h

theorem bound_records (n : Nat) :
    Records (Told n) (fun _ => Tally n) fun l => Tally n l ∧ Bound l where
  rely _ _ hr h := ⟨hr.1 h.1, hr.2 h.2⟩
  yields _ _ h := h.1.of_same rfl rfl rfl
  quiet _ _ ho h := ⟨(tally_records n).quiet _ _ ho h.1,
    h.2.of_same (congrArg Outer.closed ho) (congrArg Outer.slot ho) (congrArg Outer.work ho)⟩
  ends f d _ h := ⟨h.1.endLink f d, endLink_bound f d h.2⟩
  stalls l h := by
    refine ⟨h.1.stall, ?_⟩
    unfold stall
    split
    · exact h.2
    · exact h.2
  tiers tier max l h := by
    refine ⟨h.1.moveTier tier max, fun hc => (h.2 hc).imp (fun hs => ?_) id⟩
    simp [moveTier, hs]
  remembers _ _ _ h := ⟨h.1.of_same rfl rfl rfl, h.2.of_same rfl rfl rfl⟩
  auths _ _ h := ⟨h.1.of_same rfl rfl rfl, h.2.of_same rfl rfl rfl⟩
  takes _ h := ⟨h.1.of_same rfl rfl rfl, h.2.of_same rfl rfl rfl⟩
  sends _ _ _ h := ⟨h.1.of_same rfl rfl rfl, h.2.of_same rfl rfl rfl⟩
  tells _ _ h := ⟨h.1.of_same rfl rfl rfl, h.2.of_same rfl rfl rfl⟩
  frees _ _ h := ⟨h.1.of_same rfl rfl rfl, h.2.of_same rfl rfl rfl⟩
  parts _ h := ⟨h.1.of_same rfl rfl rfl, h.2.of_same rfl rfl rfl⟩

theorem next_eq {l l' : Link} {j : Job} (h : next l = some (j, l')) :
    l.work = j :: l'.work ∧ l' = { l with work := l'.work } := by
  unfold next at h
  cases hw : l.work with
  | nil => simp [hw] at h
  | cons j' js =>
    simp only [hw, Option.some.injEq, Prod.mk.injEq] at h
    obtain ⟨rfl, rfl⟩ := h
    exact ⟨rfl, rfl⟩

/-- The farewell gives the slot back whatever becomes of the goodbye. -/
theorem farewell_tells {n : Nat} {s : Link} (h : Tally n s) :
    farewell.wp (under (Told n) fun _ => Tally n) (fun _ l => Tally n l ∧ Bound l)
      (fun l => Tally n l ∧ Bound l) s := by
  unfold farewell
  rw [wp_bind]
  refine wp_mono ((tally_records n).sayGoodbye h) (fun said l hl => ?_) fun l hl => hl
  rw [wp_bind, wp_modify, wp_modify]
  have ht := hl.teardown
  refine ⟨⟨?_, ?_⟩, fun _ => .inl (teardown_slots l).1⟩
  · simpa [List.count_append] using ht.onClose
  · simpa [List.count_append] using ht.slots

/-- No order of events keeps a link from telling of its end, or has it tell twice. -/
def tells (n : Nat) : system.Outline fun _ _ _ => True where
  rely := Told n
  yields _ := Tally n
  idle l := Tally n l ∧ Bound l
  rely_refl _ := ⟨id, id⟩
  rely_trans h h' := ⟨h'.1 ∘ h.1, h'.2 ∘ h.2⟩
  input_rely _ i l _ _ := ⟨fun h => h.outside (input_outside i l), fun h => h.outside (input_outside i l)⟩
  input_idle i l _ h := ⟨h.1.outside (input_outside i l), h.2.outside (input_outside i l)⟩
  yields_stable hr h := hr.1 h
  body_ok {s t j} h hn := by
    obtain ⟨hw, ht⟩ := next_eq hn
    have htally : Tally n t := h.1.of_same (by rw [ht]) (by rw [ht]) (by rw [ht])
    by_cases hj : j = .farewell
    · subst hj
      exact farewell_tells htally
    · refine (bound_records n).body hj t ⟨htally, fun hc => ?_⟩
      rw [ht] at hc
      refine (h.2 hc).imp (fun hs => by rw [ht]; exact hs) fun hf => ?_
      rw [hw, List.mem_cons] at hf
      exact hf.resolve_left (Ne.symm hj)

/-- The slots a new link is given. -/
def slotsGiven (spec : Spec) (granted : Bool) : Nat := if spec.limited && granted then 1 else 0

theorem create_tells (node : Node) (spec : Spec) (realm : Realm) (granted : Bool) :
    Tally (slotsGiven spec granted) (create node spec realm granted) ∧
      Bound (create node spec realm granted) := by
  unfold create slotsGiven
  cases hl : spec.limited <;> cases hg : granted <;>
    exact ⟨⟨by simp [enqueue, abort, endLink, noteEnd], by simp [enqueue, abort, endLink, noteEnd, held]⟩,
      by simp [Bound, enqueue, abort, endLink]⟩

theorem run_tells (node : Node) (spec : Spec) (realm : Realm) (granted : Bool)
    (evs : List LinkEvent) :
    (tells (slotsGiven spec granted)).Holds
      (system.run (LinkMachine.start node spec realm granted) evs) := by
  have h0 : (tells (slotsGiven spec granted)).Holds (LinkMachine.start node spec realm granted) :=
    create_tells node spec realm granted
  exact h0.run evs (System.admitted_of_all _ (fun _ _ _ => trivial) _ _)

end Link

end SeedTransport
