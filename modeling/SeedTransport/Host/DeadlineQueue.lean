import SeedTransport.Host.RealmQueue

set_option autoImplicit false

namespace SeedTransport

/-! The deadlines of one tier (`createDeadlineQueue` of `realm-queue.ts`), with what their
`expire` callbacks may do to each other, and the host calls that are settled by them. -/

/-- `timerAt` is none while there is no timer. Deadlines are named in the order they are added,
`at'` being when each is due. The last three are for an observer: the deadlines whose `expire`
was called and when, those that were dropped and those `disarmAll` forgot. -/
structure DeadlineQueue where
  now : ℚ
  pending : List Nat
  at' : Nat → ℚ
  added : Nat
  timerAt : Option ℚ
  expired : List (Nat × ℚ)
  dropped : List Nat
  disarmed : List Nat

namespace DeadlineQueue

open RealmQueue (MAX_TIMEOUT)

def create (now : ℚ) : DeadlineQueue where
  now := now
  pending := []
  at' := fun _ => 0
  added := 0
  timerAt := none
  expired := []
  dropped := []
  disarmed := []

def drop (q : DeadlineQueue) (i : Nat) : Bool × DeadlineQueue :=
  if i ∈ q.pending then
    (true, { q with pending := q.pending.erase i, dropped := q.dropped ++ [i] })
  else (false, q)

/-- Take a deadline out and call its `expire`, which drops `drops`. -/
def expire (q : DeadlineQueue) (i : Nat) (drops : List Nat) : DeadlineQueue :=
  drops.foldl (fun q j => (q.drop j).2)
    { q with pending := q.pending.erase i, expired := q.expired ++ [(i, q.now)] }

def sooner (soonest : Option ℚ) (t : ℚ) : ℚ :=
  match soonest with
  | none => t
  | some s => min s t

/-- One turn of the walk of `arm`: a deadline that an earlier one's `expire` dropped is not
reached, and "due" is within a millisecond. -/
def visit (drops : Nat → List Nat) (s : DeadlineQueue × Option ℚ) (i : Nat) :
    DeadlineQueue × Option ℚ :=
  if i ∉ s.1.pending then s
  else if 1 ≤ s.1.at' i - s.1.now then (s.1, some (sooner s.2 (s.1.at' i)))
  else (s.1.expire i (drops i), s.2)

/-- Expire what is due, then re-arm for the earliest remaining. -/
def arm (q : DeadlineQueue) (drops : Nat → List Nat) : DeadlineQueue :=
  let s := q.pending.foldl (visit drops) ({ q with timerAt := none }, none)
  { s.1 with timerAt := s.2.map fun soonest => min soonest (q.now + MAX_TIMEOUT) }

/-- Whether a deadline moves the timer by a whole tick. -/
def rearms (q : DeadlineQueue) (t : ℚ) : Bool :=
  match q.timerAt with
  | none => true
  | some timer => decide (t < timer - 1)

def add (q : DeadlineQueue) (t : ℚ) (drops : Nat → List Nat) : DeadlineQueue :=
  let q' := { q with
    pending := q.pending ++ [q.added]
    at' := Function.update q.at' q.added t
    added := q.added + 1 }
  if q.rearms t then q'.arm drops else q'

def disarmAll (q : DeadlineQueue) : DeadlineQueue :=
  { q with timerAt := none, pending := [], disarmed := q.disarmed ++ q.pending }

/-- The timer fires, at its time or later. -/
def fire (q : DeadlineQueue) (drops : Nat → List Nat) : DeadlineQueue :=
  match q.timerAt with
  | none => q
  | some t => if t ≤ q.now then q.arm drops else q

/-- What `expire` callbacks drop is up to their owners at every event. -/
inductive Event where
  | add (t : ℚ) (drops : Nat → List Nat)
  | drop (i : Nat)
  | elapse (ms : ℚ)
  | timer (drops : Nat → List Nat)
  | disarmAll

def step (q : DeadlineQueue) : Event → DeadlineQueue
  | .add t drops => q.add t drops
  | .drop i => (q.drop i).2
  | .elapse ms => { q with now := q.now + max ms 0 }
  | .timer drops => q.fire drops
  | .disarmAll => q.disarmAll

def run (q : DeadlineQueue) (es : List Event) : DeadlineQueue := es.foldl step q

/-! ### What an event takes out of the queue -/

/-- How often a deadline is pending, expired, dropped or disarmed. -/
def fate (q : DeadlineQueue) (i : Nat) : Nat :=
  q.pending.count i + (q.expired.map (·.1)).count i + q.dropped.count i + q.disarmed.count i

/-- Some deadlines were expired, being due, and others dropped, being `P`. -/
structure Fewer (P : Nat → Prop) (q q' : DeadlineQueue) : Prop where
  now : q'.now = q.now
  at' : q'.at' = q.at'
  added : q'.added = q.added
  disarmed : q'.disarmed = q.disarmed
  pending : ∀ i ∈ q'.pending, i ∈ q.pending
  expired : ∃ new, q'.expired = q.expired ++ new ∧
    ∀ x ∈ new, x.1 ∈ q.pending ∧ x.2 = q.now ∧ q.at' x.1 - q.now < 1
  dropped : ∃ new, q'.dropped = q.dropped ++ new ∧ ∀ i ∈ new, P i
  fates : ∀ i, q'.fate i = q.fate i

variable {P : Nat → Prop} {q q' q'' : DeadlineQueue}

theorem Fewer.refl (P : Nat → Prop) (q : DeadlineQueue) : Fewer P q q where
  now := rfl
  at' := rfl
  added := rfl
  disarmed := rfl
  pending := fun _ h => h
  expired := ⟨[], by simp⟩
  dropped := ⟨[], by simp⟩
  fates := fun _ => rfl

theorem Fewer.trans (f : Fewer P q q') (f' : Fewer P q' q'') : Fewer P q q'' where
  now := f'.now.trans f.now
  at' := f'.at'.trans f.at'
  added := f'.added.trans f.added
  disarmed := f'.disarmed.trans f.disarmed
  pending := fun i hi => f.pending i (f'.pending i hi)
  expired := by
    obtain ⟨new, he, hnew⟩ := f.expired
    obtain ⟨new', he', hnew'⟩ := f'.expired
    refine ⟨new ++ new', by rw [he', he, List.append_assoc], fun x hx => ?_⟩
    rcases List.mem_append.1 hx with hx | hx
    · exact hnew x hx
    · obtain ⟨h1, h2, h3⟩ := hnew' x hx
      rw [f.now] at h2 h3
      rw [f.at'] at h3
      exact ⟨f.pending _ h1, h2, h3⟩
  dropped := by
    obtain ⟨new, he, hnew⟩ := f.dropped
    obtain ⟨new', he', hnew'⟩ := f'.dropped
    refine ⟨new ++ new', by rw [he', he, List.append_assoc], fun i hi => ?_⟩
    rcases List.mem_append.1 hi with hi | hi
    · exact hnew i hi
    · exact hnew' i hi
  fates := fun i => (f'.fates i).trans (f.fates i)

theorem count_erase_add {i j : Nat} {l : List Nat} (hj : j ∈ l) :
    (l.erase j).count i + [j].count i = l.count i := by
  have hperm := (List.perm_cons_erase hj).count_eq i
  rw [List.count_cons] at hperm
  rw [List.count_singleton]
  omega

theorem drop_fewer (q : DeadlineQueue) {j : Nat} (hj : P j) : Fewer P q (q.drop j).2 := by
  unfold drop
  split
  · rename_i hmem
    exact { Fewer.refl P q with
      pending := fun i hi => List.mem_of_mem_erase hi
      dropped := ⟨[j], rfl, fun i hi => by rwa [List.mem_singleton.1 hi]⟩
      fates := fun i => by
        have := count_erase_add (i := i) hmem
        simp only [fate, List.count_append]
        omega }
  · exact Fewer.refl P q

theorem foldl_drop_fewer (drops : List Nat) (hdrops : ∀ j ∈ drops, P j) :
    ∀ q : DeadlineQueue, Fewer P q (drops.foldl (fun q j => (q.drop j).2) q) := by
  induction drops with
  | nil => exact fun q => Fewer.refl P q
  | cons j drops ih =>
    intro q
    exact (drop_fewer q (hdrops j (by simp))).trans
      (ih (fun k hk => hdrops k (by simp [hk])) (q.drop j).2)

theorem expire_fewer {i : Nat} {drops : List Nat} (hi : i ∈ q.pending) (hdue : q.at' i - q.now < 1)
    (hdrops : ∀ j ∈ drops, P j) : Fewer P q (q.expire i drops) := by
  have hout : Fewer P q
      { q with pending := q.pending.erase i, expired := q.expired ++ [(i, q.now)] } :=
    { Fewer.refl P q with
      pending := fun j hj => List.mem_of_mem_erase hj
      expired := ⟨[(i, q.now)], rfl, fun x hx => by
        rw [List.mem_singleton.1 hx]
        exact ⟨hi, rfl, hdue⟩⟩
      fates := fun j => by
        have := count_erase_add (i := j) hi
        simp only [fate, List.map_append, List.map_cons, List.map_nil, List.count_append]
        omega }
  exact hout.trans (foldl_drop_fewer drops hdrops _)

theorem expire_gone {i : Nat} (drops : List Nat) (hone : q.fate i ≤ 1) :
    i ∉ (q.expire i drops).pending := by
  intro hmem
  have hin := (foldl_drop_fewer (P := fun _ => True) drops (fun _ _ => trivial) _).pending i hmem
  have hpos := List.count_pos_iff.2 hin
  have := List.count_erase_self (a := i) (l := q.pending)
  simp only [fate] at hone hpos
  omega

/-- The walk so far: what it has passed and left is not due, and none of it is before `soonest`. -/
structure Walk (P : Nat → Prop) (q : DeadlineQueue) (rest : List Nat)
    (s : DeadlineQueue × Option ℚ) : Prop extends Fewer P q s.1 where
  passed : ∀ i ∈ s.1.pending, i ∈ rest ∨
    (1 ≤ q.at' i - q.now ∧ ∃ soonest, s.2 = some soonest ∧ soonest ≤ q.at' i)

theorem sooner_le (soonest : Option ℚ) (t : ℚ) : sooner soonest t ≤ t := by
  unfold sooner
  split
  · exact le_rfl
  · exact min_le_right _ _

theorem sooner_le_of_eq {soonest : Option ℚ} {s : ℚ} (h : soonest = some s) (t : ℚ) :
    sooner soonest t ≤ s := by
  subst h
  exact min_le_left _ _

theorem Walk.visit {rest : List Nat} {s : DeadlineQueue × Option ℚ} {drops : Nat → List Nat}
    {i : Nat} (w : Walk P q (i :: rest) s) (hone : ∀ j, q.fate j ≤ 1)
    (hdrops : ∀ k, ∀ j ∈ drops k, P j) : Walk P q rest (visit drops s i) := by
  unfold DeadlineQueue.visit
  split
  · rename_i hno
    exact { w with
      passed := fun j hj => by
        rcases w.passed j hj with hr | hr
        · rcases List.mem_cons.1 hr with rfl | hr
          · exact absurd hj hno
          · exact .inl hr
        · exact .inr hr }
  split
  · rename_i hmem hlater
    rw [w.now, w.at'] at hlater
    exact { w with
      passed := fun j hj => by
        rcases w.passed j hj with hr | ⟨hd, s', hs, hle⟩
        · rcases List.mem_cons.1 hr with rfl | hr
          · exact .inr ⟨hlater, _, rfl, by rw [w.at']; exact sooner_le _ _⟩
          · exact .inl hr
        · exact .inr ⟨hd, _, rfl, (sooner_le_of_eq hs _).trans hle⟩ }
  · rename_i hmem hdue
    rw [not_not] at hmem
    rw [not_le] at hdue
    have f := expire_fewer hmem hdue (hdrops i)
    exact { w.toFewer.trans f with
      passed := fun j hj => by
        rcases w.passed j (f.pending j hj) with hr | hr
        · rcases List.mem_cons.1 hr with rfl | hr
          · exact absurd hj (expire_gone _ (by rw [w.fates]; exact hone _))
          · exact .inl hr
        · exact .inr hr }

theorem Walk.foldl {drops : Nat → List Nat} (hone : ∀ j, q.fate j ≤ 1)
    (hdrops : ∀ k, ∀ j ∈ drops k, P j) (l : List Nat) : ∀ s : DeadlineQueue × Option ℚ,
    Walk P q l s → Walk P q [] (l.foldl (DeadlineQueue.visit drops) s) := by
  induction l with
  | nil => exact fun _ w => w
  | cons i l ih => exact fun s w => ih _ (w.visit hone hdrops)

/-- The timer is never later than a tick past anything pending, nor further ahead than
`setTimeout` reaches. -/
structure Armed (q : DeadlineQueue) : Prop where
  soon : ∀ i ∈ q.pending, ∃ t, q.timerAt = some t ∧ t ≤ q.at' i + 1
  near : ∀ t, q.timerAt = some t → t ≤ q.now + MAX_TIMEOUT

theorem arm_fewer {drops : Nat → List Nat} (hone : ∀ j, q.fate j ≤ 1)
    (hdrops : ∀ k, ∀ j ∈ drops k, P j) :
    Fewer P q (q.arm drops) ∧ (q.arm drops).Armed ∧
      ∀ i ∈ (q.arm drops).pending, 1 ≤ q.at' i - q.now := by
  have f : Fewer P q { q with timerAt := none } := { Fewer.refl P q with }
  have w : Walk P { q with timerAt := none } q.pending ({ q with timerAt := none }, none) :=
    { Fewer.refl P { q with timerAt := none } with passed := fun i hi => .inl hi }
  have w := Walk.foldl (q := { q with timerAt := none }) hone hdrops q.pending _ w
  refine ⟨{ f.trans w.toFewer with }, ⟨fun i hi => ?_, fun t ht => ?_⟩, fun i hi => ?_⟩
  · rcases w.passed i hi with hr | ⟨hd, s, hs, hle⟩
    · cases hr
    · refine ⟨_, congrArg (Option.map _) hs, ?_⟩
      have h1 : min s (q.now + MAX_TIMEOUT) ≤ q.at' i := (min_le_left _ _).trans hle
      have h2 : (q.arm drops).at' = q.at' := w.at'
      rw [h2]
      linarith
  · have hn : (q.arm drops).now = q.now := w.now
    rw [hn]
    obtain ⟨s, -, rfl⟩ := Option.map_eq_some_iff.1 ht
    exact min_le_right _ _
  · rcases w.passed i hi with hr | ⟨hd, -⟩
    · cases hr
    · exact hd

/-! ### What holds of the queue -/

structure Kept (q : DeadlineQueue) : Prop extends Armed q where
  fates : ∀ i, q.fate i = if i < q.added then 1 else 0

theorem Kept.one (k : q.Kept) (i : Nat) : q.fate i ≤ 1 := by
  rw [k.fates]
  split <;> omega

theorem create_kept (now : ℚ) : (create now).Kept where
  soon := fun i hi => by cases hi
  near := fun t ht => by cases ht
  fates := fun i => by simp [fate, create]

/-- A deadline that is added, before the timer moves for it. -/
def put (q : DeadlineQueue) (t : ℚ) : DeadlineQueue :=
  { q with
    pending := q.pending ++ [q.added]
    at' := Function.update q.at' q.added t
    added := q.added + 1 }

theorem Kept.put_fates (k : q.Kept) (t : ℚ) (i : Nat) :
    (q.put t).fate i = if i < (q.put t).added then 1 else 0 := by
  have hfate : (q.put t).fate i = q.fate i + [q.added].count i := by
    simp only [fate, put, List.count_append]
    omega
  have hadded : (q.put t).added = q.added + 1 := rfl
  rw [hfate, k.fates, List.count_singleton, hadded]
  rcases lt_trichotomy i q.added with h | rfl | h
  · simp [h, h.ne', Nat.lt_succ_of_lt h]
  · simp
  · simp [h.ne, h.not_gt, Nat.not_lt.2 h]

theorem Kept.added (k : q.Kept) {i : Nat} (hi : i ∈ q.pending) : i < q.added := by
  have := k.fates i
  have hpos := List.count_pos_iff.2 hi
  simp only [fate] at this
  split at this
  · assumption
  · omega

theorem arm_kept (hf : ∀ i, q.fate i = if i < q.added then 1 else 0) (drops : Nat → List Nat) :
    (q.arm drops).Kept := by
  have hone : ∀ i, q.fate i ≤ 1 := by
    intro i
    rw [hf]
    split <;> omega
  have hdrops : ∀ i, ∀ j ∈ drops i, True := fun _ _ _ => trivial
  obtain ⟨f, ha, -⟩ := arm_fewer hone hdrops
  exact { ha with
    fates := fun i => by
      rw [f.fates, f.added]
      exact hf i }

theorem add_eq (q : DeadlineQueue) (t : ℚ) (drops : Nat → List Nat) :
    q.add t drops = if q.rearms t then (q.put t).arm drops else q.put t := rfl

/-- A timer that is not moved is soon enough. -/
theorem not_rearms {t : ℚ} (h : ¬ q.rearms t = true) : ∃ timer, q.timerAt = some timer ∧ timer ≤ t + 1 := by
  unfold rearms at h
  split at h
  · exact absurd rfl h
  · rename_i timer ht
    refine ⟨timer, ht, ?_⟩
    simp only [decide_eq_true_eq, not_lt] at h
    linarith

theorem Kept.add (k : q.Kept) (t : ℚ) (drops : Nat → List Nat) : (q.add t drops).Kept := by
  rw [add_eq]
  split
  · exact arm_kept (k.put_fates t) drops
  · rename_i hno
    obtain ⟨timer, ht, hle⟩ := not_rearms hno
    exact {
      soon := fun i hi => by
        refine ⟨timer, ht, ?_⟩
        rcases List.mem_append.1 hi with hi | hi
        · obtain ⟨timer', ht', hle'⟩ := k.soon i hi
          obtain rfl : timer = timer' := Option.some.inj (ht.symm.trans ht')
          have hne : i ≠ q.added := (k.added hi).ne
          simpa [put, hne] using hle'
        · rw [List.mem_singleton.1 hi]
          simpa [put] using hle
      near := k.near
      fates := k.put_fates t }

theorem Kept.drop (k : q.Kept) (i : Nat) : (q.drop i).2.Kept := by
  have f := drop_fewer (P := fun _ => True) q (j := i) trivial
  have ht : (q.drop i).2.timerAt = q.timerAt := by
    unfold DeadlineQueue.drop
    split <;> rfl
  exact {
    soon := fun j hj => by
      rw [ht, f.at']
      exact k.soon j (f.pending j hj)
    near := fun t h => by
      rw [ht] at h
      rw [f.now]
      exact k.near t h
    fates := fun j => by
      rw [f.fates, f.added]
      exact k.fates j }

theorem Kept.disarmAll (k : q.Kept) : q.disarmAll.Kept where
  soon := fun i hi => by cases hi
  near := fun t ht => by cases ht
  fates := fun i => by
    have hfate : q.disarmAll.fate i = q.fate i := by
      simp only [fate, DeadlineQueue.disarmAll, List.count_append, List.count_nil]
      omega
    rw [hfate]
    exact k.fates i

theorem Kept.fire (k : q.Kept) (drops : Nat → List Nat) : (q.fire drops).Kept := by
  unfold DeadlineQueue.fire
  split
  · exact k
  · split
    · exact arm_kept k.fates drops
    · exact k

theorem Kept.step (k : q.Kept) (e : Event) : (q.step e).Kept := by
  cases e with
  | add t drops => exact k.add t drops
  | drop i => exact k.drop i
  | elapse ms =>
    exact { k with
      near := fun t ht => by
        have := k.near t ht
        have := le_max_right ms 0
        simp only [DeadlineQueue.step]
        linarith }
  | timer drops => exact k.fire drops
  | disarmAll => exact k.disarmAll

theorem Kept.run (es : List Event) : ∀ {q : DeadlineQueue}, q.Kept → (q.run es).Kept := by
  induction es with
  | nil => exact fun k => k
  | cons e es ih => exact fun k => ih (k.step e)

/-! ### Never more than a tick late -/

/-- What expired was pending, and its time was up by a tick; it is a tick late at most, but for
what the timer itself is late. -/
structure Due (q : DeadlineQueue) (x : Nat × ℚ) : Prop where
  pending : x.1 ∈ q.pending
  at' : x.2 = q.now
  early : q.at' x.1 - x.2 < 1
  late : ∃ t, q.timerAt = some t ∧ x.2 - q.at' x.1 ≤ 1 + (q.now - t)

theorem Kept.arm_due (k : q.Kept) (drops : Nat → List Nat) :
    ∀ x ∈ (q.arm drops).expired, x ∈ q.expired ∨ q.Due x := by
  have hdrops : ∀ i, ∀ j ∈ drops i, True := fun _ _ _ => trivial
  obtain ⟨new, he, hnew⟩ := (arm_fewer k.one hdrops).1.expired
  intro x hx
  rw [he] at hx
  rcases List.mem_append.1 hx with hx | hx
  · exact .inl hx
  · obtain ⟨h1, h2, h3⟩ := hnew x hx
    obtain ⟨t, ht, hle⟩ := k.soon x.1 h1
    exact .inr ⟨h1, h2, by rw [h2]; exact h3, t, ht, by rw [h2]; linarith⟩

theorem Kept.add_due (k : q.Kept) (t : ℚ) (drops : Nat → List Nat) :
    ∀ x ∈ (q.add t drops).expired, x ∈ q.expired ∨ x.1 = q.added ∨ q.Due x := by
  intro x hx
  rw [add_eq] at hx
  split at hx
  · have hone : ∀ i, (q.put t).fate i ≤ 1 := by
      intro i
      rw [k.put_fates]
      split <;> omega
    have hdrops : ∀ i, ∀ j ∈ drops i, True := fun _ _ _ => trivial
    obtain ⟨new, he, hnew⟩ := (arm_fewer hone hdrops).1.expired
    rw [he] at hx
    rcases List.mem_append.1 hx with hx | hx
    · exact .inl hx
    · obtain ⟨h1, h2, h3⟩ := hnew x hx
      rcases List.mem_append.1 h1 with h1 | h1
      · have hne : x.1 ≠ q.added := (k.added h1).ne
        have hat : (q.put t).at' x.1 = q.at' x.1 := by simp [put, hne]
        have h2 : x.2 = q.now := h2
        have h3 : q.at' x.1 - q.now < 1 := hat ▸ h3
        obtain ⟨timer, ht, hle⟩ := k.soon x.1 h1
        exact .inr (.inr ⟨h1, h2, by rw [h2]; exact h3, timer, ht, by rw [h2]; linarith⟩)
      · exact .inr (.inl (List.mem_singleton.1 h1))
  · exact .inl hx

theorem drop_expired (q : DeadlineQueue) (i : Nat) : (q.drop i).2.expired = q.expired := by
  unfold drop
  split <;> rfl

theorem Kept.step_due (k : q.Kept) (e : Event) :
    ∀ x ∈ (q.step e).expired, x ∈ q.expired ∨ x.1 = q.added ∨ q.Due x := by
  intro x hx
  cases e with
  | add t drops => exact k.add_due t drops x hx
  | drop i =>
    simp only [DeadlineQueue.step, drop_expired] at hx
    exact .inl hx
  | elapse ms => exact .inl hx
  | timer drops =>
    simp only [DeadlineQueue.step, DeadlineQueue.fire] at hx
    split at hx
    · exact .inl hx
    · split at hx
      · rcases k.arm_due drops x hx with hx | hx
        · exact .inl hx
        · exact .inr (.inr hx)
      · exact .inl hx
  | disarmAll => exact .inl hx

/-- Once the timer has fired nothing due is left. -/
theorem Kept.fired (k : q.Kept) {t : ℚ} (ht : q.timerAt = some t) (hle : t ≤ q.now)
    (drops : Nat → List Nat) : ∀ i ∈ (q.fire drops).pending, 1 ≤ q.at' i - q.now := by
  have hdrops : ∀ i, ∀ j ∈ drops i, True := fun _ _ _ => trivial
  simp only [DeadlineQueue.fire, ht, hle, if_true]
  exact (arm_fewer k.one hdrops).2.2

end DeadlineQueue

/-! ### Host calls -/

/-- A call of `settleByDeadline`; `settles` counts the calls of its `settle`. -/
structure HostCall where
  deadline : Option Nat
  answered : Bool
  settles : Nat

/-- Host calls that settle by one queue, which others use too. `owner` is the call a deadline is
for, `microtasks` the calls whose `expire` has posted its microtask. -/
structure HostCallQueue where
  queue : DeadlineQueue
  calls : Nat
  call : Nat → HostCall
  owner : Nat → Option Nat
  microtasks : List Nat

namespace HostCallQueue

def create (now : ℚ) : HostCallQueue where
  queue := .create now
  calls := 0
  call := fun _ => ⟨none, false, 0⟩
  owner := fun _ => none
  microtasks := []

/-- What the others' `expire` drops: a call's deadline is its own, and its `expire` only posts a
microtask. -/
def others (s : HostCallQueue) (drops : Nat → List Nat) (i : Nat) : List Nat :=
  if (s.owner i).isSome then [] else (drops i).filter fun j => (s.owner j).isNone

/-- The queue after an event, with a microtask for each call's deadline that expired in it. -/
def onQueue (s : HostCallQueue) (q : DeadlineQueue) : HostCallQueue :=
  { s with
    queue := q
    microtasks := s.microtasks ++
      (q.expired.drop s.queue.expired.length).filterMap fun x => s.owner x.1 }

def settleOnce (s : HostCallQueue) (j : Nat) : HostCallQueue :=
  { s with call := Function.update s.call j { s.call j with settles := (s.call j).settles + 1 } }

def settleByDeadline (s : HostCallQueue) (remainingMs : Ms) (drops : Nat → List Nat) :
    Except String Nat × HostCallQueue :=
  match deadlineAt s.queue.now remainingMs with
  | .error e => (.error e, s)
  | .ok none =>
    (.ok s.calls, { s with
      calls := s.calls + 1
      call := Function.update s.call s.calls ⟨none, false, 0⟩ })
  | .ok (some t) =>
    let s' := { s with
      calls := s.calls + 1
      call := Function.update s.call s.calls ⟨some s.queue.added, false, 0⟩
      owner := Function.update s.owner s.queue.added (some s.calls) }
    (.ok s.calls, s'.onQueue (s.queue.add t (s'.others drops)))

/-- The answer of a call comes, or its failure. -/
def answer (s : HostCallQueue) (j : Nat) : HostCallQueue :=
  let s := { s with call := Function.update s.call j { s.call j with answered := true } }
  match (s.call j).deadline with
  | none => s.settleOnce j
  | some i =>
    let r := s.queue.drop i
    if r.1 then { s with queue := r.2 }.settleOnce j else s

/-- The first two are the calls' own, the rest the queue's; `drop` is of a deadline of the
others. -/
inductive Event where
  | call (remainingMs : Ms) (drops : Nat → List Nat)
  | answer (j : Nat)
  | microtask
  | add (t : ℚ) (drops : Nat → List Nat)
  | drop (i : Nat)
  | elapse (ms : ℚ)
  | timer (drops : Nat → List Nat)
  | disarmAll

def step (s : HostCallQueue) : Event → HostCallQueue
  | .call remainingMs drops => (s.settleByDeadline remainingMs drops).2
  | .answer j => if j < s.calls ∧ (s.call j).answered = false then s.answer j else s
  | .microtask =>
    match s.microtasks with
    | [] => s
    | j :: rest => { s with microtasks := rest }.settleOnce j
  | .add t drops => s.onQueue (s.queue.add t (s.others drops))
  | .drop i => if (s.owner i).isNone then { s with queue := (s.queue.drop i).2 } else s
  | .elapse ms => { s with queue := s.queue.step (.elapse ms) }
  | .timer drops => s.onQueue (s.queue.fire (s.others drops))
  | .disarmAll => { s with queue := s.queue.disarmAll }

def run (s : HostCallQueue) (es : List Event) : HostCallQueue := es.foldl step s

/-! ### Each call settles once -/

variable {s : HostCallQueue}

/-- How often a deadline was taken out to settle its call. -/
def taken (q : DeadlineQueue) (i : Nat) : Nat := q.dropped.count i + (q.expired.map (·.1)).count i

/-- A call with a deadline has settled, or will in its microtask, once for each time that its
deadline was taken out; one without settles when it is answered. -/
structure Counted (s : HostCallQueue) : Prop where
  owned : ∀ i j, s.owner i = some j → j < s.calls ∧ (s.call j).deadline = some i
  finite : ∀ j i, (s.call j).deadline = some i → s.owner i = some j ∧
    (s.call j).settles + s.microtasks.count j = taken s.queue i ∧
    ((s.call j).answered = true → i ∉ s.queue.pending)
  infinite : ∀ j, (s.call j).deadline = none → j ∉ s.microtasks ∧
    (s.call j).settles = if (s.call j).answered then 1 else 0
  unmade : ∀ j, s.calls ≤ j → s.call j = ⟨none, false, 0⟩

structure Settled (s : HostCallQueue) : Prop extends Counted s where
  kept : s.queue.Kept
  unowned : ∀ i, s.queue.added ≤ i → s.owner i = none

/-- What an event of the queue may do while calls wait in it. -/
structure Passed (s : HostCallQueue) (q : DeadlineQueue) : Prop where
  pending : ∀ i ∈ q.pending, i ∈ s.queue.pending ∨
    i = s.queue.added ∧ ∀ j, (s.call j).deadline = some i → (s.call j).answered = false
  expired : ∃ new, q.expired = s.queue.expired ++ new
  dropped : ∃ new, q.dropped = s.queue.dropped ++ new ∧ ∀ i ∈ new, s.owner i = none

theorem count_owner {owner : Nat → Option Nat} {i j : Nat} (hown : ∀ k, owner k = some j ↔ k = i)
    (l : List (Nat × ℚ)) : (l.filterMap fun x => owner x.1).count j = (l.map (·.1)).count i := by
  induction l with
  | nil => rfl
  | cons x l ih =>
    simp only [List.map_cons, List.count_cons, List.filterMap_cons]
    by_cases hx : x.1 = i
    · rw [(hown x.1).2 hx]
      simp [ih, hx]
    · have hne : owner x.1 ≠ some j := fun h => hx ((hown x.1).1 h)
      cases ho : owner x.1 with
      | none => simp [ih, hx]
      | some k =>
        have hk : k ≠ j := fun h => hne (by rw [ho, h])
        simp [ih, hx, hk]

theorem Counted.onQueue (c : s.Counted) {q : DeadlineQueue} (p : Passed s q) :
    (s.onQueue q).Counted := by
  obtain ⟨new, hexp⟩ := p.expired
  obtain ⟨gone, hdrop, hgone⟩ := p.dropped
  have htasks : (s.onQueue q).microtasks = s.microtasks ++ new.filterMap fun x => s.owner x.1 := by
    simp [HostCallQueue.onQueue, hexp]
  refine ⟨c.owned, fun j i hd => ?_, fun j hd => ?_, c.unmade⟩
  · obtain ⟨hown, hcount, hans⟩ := c.finite j i hd
    refine ⟨hown, ?_, fun ha hmem => ?_⟩
    · have hiff : ∀ k, s.owner k = some j ↔ k = i := by
        refine fun k => ⟨fun hk => ?_, fun hk => hk ▸ hown⟩
        exact Option.some.inj ((c.owned k j hk).2.symm.trans hd)
      have hnone : gone.count i = 0 := List.count_eq_zero.2 fun hi => by
        rw [hgone i hi] at hown
        cases hown
      have hnew := count_owner hiff new
      have htaken : taken q i = taken s.queue i + (new.map (·.1)).count i := by
        simp only [taken, hexp, hdrop, List.count_append, List.map_append, hnone]
        omega
      rw [htasks, List.count_append, hnew]
      have hgoal : (s.call j).settles + (s.microtasks.count j + (new.map (·.1)).count i) =
          taken q i := by omega
      exact hgoal
    · rcases p.pending i hmem with hp | ⟨-, hp⟩
      · exact hans ha hp
      · have := hp j hd
        have ha : (s.call j).answered = true := ha
        rw [ha] at this
        cases this
  · obtain ⟨hno, hset⟩ := c.infinite j hd
    refine ⟨fun hmem => ?_, hset⟩
    rw [htasks, List.mem_append] at hmem
    rcases hmem with hmem | hmem
    · exact hno hmem
    · obtain ⟨x, -, hx⟩ := List.mem_filterMap.1 hmem
      have := (c.owned x.1 j hx).2
      have hd : (s.call j).deadline = none := hd
      rw [hd] at this
      cases this

theorem others_unowned (s : HostCallQueue) (drops : Nat → List Nat) (i : Nat) :
    ∀ j ∈ s.others drops i, s.owner j = none := by
  intro j hj
  unfold others at hj
  split at hj
  · cases hj
  · simpa using (List.mem_filter.1 hj).2

end HostCallQueue

namespace DeadlineQueue

variable {P : Nat → Prop} {q : DeadlineQueue}

/-- What firing takes out. -/
theorem Kept.fire_fewer (k : q.Kept) {drops : Nat → List Nat} (hdrops : ∀ i, ∀ j ∈ drops i, P j) :
    Fewer P q (q.fire drops) := by
  unfold DeadlineQueue.fire
  split
  · exact Fewer.refl P q
  · split
    · exact (arm_fewer k.one hdrops).1
    · exact Fewer.refl P q

/-- What adding takes out, of the queue with the new one in it. -/
theorem Kept.add_fewer (k : q.Kept) (t : ℚ) {drops : Nat → List Nat}
    (hdrops : ∀ i, ∀ j ∈ drops i, P j) : Fewer P (q.put t) (q.add t drops) := by
  rw [add_eq]
  split
  · have hone : ∀ i, (q.put t).fate i ≤ 1 := by
      intro i
      rw [k.put_fates]
      split <;> omega
    exact (arm_fewer hone hdrops).1
  · exact Fewer.refl P _

end DeadlineQueue

namespace HostCallQueue

variable {s : HostCallQueue}

theorem create_settled (now : ℚ) : (create now).Settled where
  owned := fun i j h => by cases h
  finite := fun j i h => by cases h
  infinite := fun j h => ⟨fun hm => (by cases hm), rfl⟩
  unmade := fun j h => rfl
  kept := DeadlineQueue.create_kept now
  unowned := fun i h => rfl

/-- An event of the queue that adds nothing. -/
theorem Settled.onQueue (k : s.Settled) {q : DeadlineQueue} (hq : q.Kept)
    (f : DeadlineQueue.Fewer (fun i => s.owner i = none) s.queue q) : (s.onQueue q).Settled := by
  obtain ⟨new, he, -⟩ := f.expired
  have p : Passed s q := ⟨fun i hi => .inl (f.pending i hi), ⟨new, he⟩, f.dropped⟩
  exact { k.toCounted.onQueue p with
    kept := hq
    unowned := fun i hi => k.unowned i (by rw [← f.added]; exact hi) }

theorem Settled.taken_new (k : s.Settled) : taken s.queue s.queue.added = 0 := by
  have := k.kept.fates s.queue.added
  simp only [DeadlineQueue.fate, lt_self_iff_false, if_false] at this
  simp only [taken]
  omega

theorem Settled.no_task (k : s.Settled) {j : Nat} (hj : s.calls ≤ j) : j ∉ s.microtasks := by
  have hd : (s.call j).deadline = none := by rw [k.unmade j hj]
  exact (k.infinite j hd).1

theorem passed_add (s : HostCallQueue) (hk : s.queue.Kept) (t : ℚ) (drops : Nat → List Nat)
    (hnew : ∀ j, (s.call j).deadline = some s.queue.added → (s.call j).answered = false) :
    Passed s (s.queue.add t (s.others drops)) := by
  have f := hk.add_fewer t (others_unowned s drops)
  obtain ⟨new, he, -⟩ := f.expired
  refine ⟨fun i hi => ?_, ⟨new, he⟩, f.dropped⟩
  rcases List.mem_append.1 (f.pending i hi) with hi | hi
  · exact .inl hi
  · rw [List.mem_singleton.1 hi]
    exact .inr ⟨rfl, hnew⟩

theorem add_added (hk : s.queue.Kept) (t : ℚ) (drops : Nat → List Nat) :
    (s.queue.add t (s.others drops)).added = s.queue.added + 1 :=
  (hk.add_fewer t (others_unowned s drops)).added

theorem Settled.add (k : s.Settled) (t : ℚ) (drops : Nat → List Nat) :
    (s.onQueue (s.queue.add t (s.others drops))).Settled := by
  have p := passed_add s k.kept t drops fun j hj => by
    have := (k.finite j _ hj).1
    rw [k.unowned _ le_rfl] at this
    cases this
  exact { k.toCounted.onQueue p with
    kept := k.kept.add t _
    unowned := fun i hi => k.unowned i (by
      have hi : (s.queue.add t (s.others drops)).added ≤ i := hi
      rw [add_added k.kept] at hi
      omega) }

/-- A call that has been made, before the queue has its deadline. -/
theorem Settled.made (k : s.Settled) (deadline : Option Nat)
    (hd : ∀ i, deadline = some i → i = s.queue.added) :
    ({ s with
      calls := s.calls + 1
      call := Function.update s.call s.calls ⟨deadline, false, 0⟩
      owner := fun i => if deadline = some i then some s.calls else s.owner i } :
      HostCallQueue).Counted := by
  refine ⟨fun i j h => ?_, fun j i h => ?_, fun j h => ?_, fun j h => ?_⟩
  · simp only at h ⊢
    split at h
    · rename_i hi
      obtain rfl := Option.some.inj h
      simp [hi]
    · obtain ⟨hj, hdj⟩ := k.owned i j h
      exact ⟨by omega, by simpa [hj.ne] using hdj⟩
  · simp only at h ⊢
    by_cases hj : j = s.calls
    · subst hj
      simp only [Function.update_self] at h ⊢
      have hno := List.count_eq_zero.2 (k.no_task (le_refl s.calls))
      refine ⟨if_pos h, ?_, fun ha => by cases ha⟩
      rw [hd i h, k.taken_new, hno]
    · simp only [Function.update_of_ne hj] at h ⊢
      obtain ⟨hown, hrest⟩ := k.finite j i h
      refine ⟨?_, hrest⟩
      rw [if_neg, hown]
      intro hi
      rw [hd i hi, k.unowned _ le_rfl] at hown
      cases hown
  · simp only at h ⊢
    by_cases hj : j = s.calls
    · subst hj
      simp only [Function.update_self] at h ⊢
      exact ⟨k.no_task le_rfl, rfl⟩
    · simp only [Function.update_of_ne hj] at h ⊢
      exact k.infinite j h
  · have hj : j ≠ s.calls := by
      simp only at h
      omega
    simp only at h ⊢
    rw [Function.update_of_ne hj]
    exact k.unmade j (by omega)

theorem Settled.call (k : s.Settled) (remainingMs : Ms) (drops : Nat → List Nat) :
    (s.settleByDeadline remainingMs drops).2.Settled := by
  unfold HostCallQueue.settleByDeadline
  cases hd : deadlineAt s.queue.now remainingMs with
  | error e => exact k
  | ok at' =>
    cases at' with
    | none =>
      have c := k.made none fun i h => by cases h
      exact { c with
        kept := k.kept
        unowned := k.unowned }
    | some t =>
      have c := k.made (some s.queue.added) fun i h => (Option.some.inj h).symm
      have howner : (fun i => if some s.queue.added = some i then some s.calls else s.owner i) =
          Function.update s.owner s.queue.added (some s.calls) := by
        funext i
        by_cases hi : i = s.queue.added
        · simp [hi]
        · have hi' : s.queue.added ≠ i := fun h => hi h.symm
          simp [hi, hi']
      rw [howner] at c
      simp only
      generalize hs : ({ s with
        calls := s.calls + 1
        call := Function.update s.call s.calls ⟨some s.queue.added, false, 0⟩
        owner := Function.update s.owner s.queue.added (some s.calls) } : HostCallQueue) = s' at c ⊢
      have hq : s'.queue = s.queue := by rw [← hs]
      have hk : s'.queue.Kept := by
        rw [hq]
        exact k.kept
      have p := passed_add s' hk t drops fun j hj => by
        have hown := (c.finite j _ hj).1
        rw [hq, ← hs] at hown
        simp only [Function.update_self, Option.some.injEq] at hown
        rw [← hs, ← hown]
        simp
      rw [← hq]
      exact { c.onQueue p with
        kept := hk.add t _
        unowned := fun i hi => by
          have hi : (s'.queue.add t (s'.others drops)).added ≤ i := hi
          rw [add_added hk, hq] at hi
          have hne : i ≠ s.queue.added := by omega
          have := k.unowned i (by omega)
          rw [← hs]
          simpa [HostCallQueue.onQueue, hne] using this }

/-- The deadline of a call that was not answered is in the queue, or was taken out of it. -/
theorem drop_taken {q : DeadlineQueue} {i : Nat} (hi : i ∈ q.pending) (k : Nat) :
    taken (q.drop i).2 k = taken q k + if k = i then 1 else 0 := by
  simp only [DeadlineQueue.drop, hi, if_true, taken, List.count_append, List.count_singleton,
    beq_iff_eq]
  by_cases hk : k = i
  · simp [hk]
    omega
  · have hk' : i ≠ k := fun h => hk h.symm
    simp [hk, hk']

theorem drop_gone {q : DeadlineQueue} (hk : q.Kept) (i : Nat) : i ∉ (q.drop i).2.pending := by
  unfold DeadlineQueue.drop
  split
  · intro hmem
    have hpos := List.count_pos_iff.2 hmem
    have := List.count_erase_self (a := i) (l := q.pending)
    have hone := hk.one i
    simp only [DeadlineQueue.fate] at hone hpos
    omega
  · assumption

/-- What one call does: take its deadline out, run its microtask, settle. -/
theorem Settled.update (k : s.Settled) {j : Nat} (hj : j < s.calls) (c : HostCall)
    (q : DeadlineQueue) (tasks : List Nat) (hd : c.deadline = (s.call j).deadline)
    (hq : q.Kept) (hadded : q.added = s.queue.added) (hpending : ∀ i ∈ q.pending, i ∈ s.queue.pending)
    (htaken : ∀ i, s.owner i ≠ some j → taken q i = taken s.queue i)
    (htasks : ∀ j', j' ≠ j → tasks.count j' = s.microtasks.count j')
    (hfinite : ∀ i, c.deadline = some i → c.settles + tasks.count j = taken q i ∧
      (c.answered = true → i ∉ q.pending))
    (hinfinite : c.deadline = none → j ∉ tasks ∧ c.settles = if c.answered then 1 else 0) :
    ({ s with queue := q, microtasks := tasks, call := Function.update s.call j c } :
      HostCallQueue).Settled where
  owned := fun i j' h => by
    obtain ⟨h1, h2⟩ := k.owned i j' h
    refine ⟨h1, ?_⟩
    by_cases hjj : j' = j
    · subst hjj
      simpa only [Function.update_self, hd] using h2
    · simpa only [Function.update_of_ne hjj] using h2
  finite := fun j' i h => by
    by_cases hjj : j' = j
    · subst hjj
      simp only [Function.update_self] at h ⊢
      exact ⟨(k.finite j' i (hd ▸ h)).1, hfinite i h⟩
    · simp only [Function.update_of_ne hjj] at h ⊢
      obtain ⟨hown, hcount, hans⟩ := k.finite j' i h
      have hne : s.owner i ≠ some j := fun e => hjj (Option.some.inj (hown.symm.trans e))
      rw [htaken i hne, htasks j' hjj]
      exact ⟨hown, hcount, fun ha hm => hans ha (hpending i hm)⟩
  infinite := fun j' h => by
    by_cases hjj : j' = j
    · subst hjj
      simp only [Function.update_self] at h ⊢
      exact hinfinite h
    · simp only [Function.update_of_ne hjj] at h ⊢
      obtain ⟨hno, hset⟩ := k.infinite j' h
      refine ⟨fun hm => hno ?_, hset⟩
      have := List.count_pos_iff.2 hm
      rw [htasks j' hjj] at this
      exact List.count_pos_iff.1 this
  unmade := fun j' h => by
    have hjj : j' ≠ j := by
      simp only at h
      omega
    simp only [Function.update_of_ne hjj]
    exact k.unmade j' h
  kept := hq
  unowned := fun i hi => k.unowned i (by rw [← hadded]; exact hi)

theorem Settled.answer (k : s.Settled) {j : Nat} (hj : j < s.calls)
    (ha : (s.call j).answered = false) : (s.answer j).Settled := by
  unfold HostCallQueue.answer
  simp only [Function.update_self]
  cases hd : (s.call j).deadline with
  | none =>
    obtain ⟨hno, hset⟩ := k.infinite j hd
    rw [ha] at hset
    simp only [settleOnce, Function.update_idem, Function.update_self]
    exact k.update hj _ s.queue s.microtasks hd.symm k.kept rfl (fun _ h => h) (fun _ _ => rfl)
      (fun _ _ => rfl) (fun i h => by cases h) (fun _ => ⟨hno, by simp [hset]⟩)
  | some i =>
    obtain ⟨hown, hcount, -⟩ := k.finite j i hd
    have f := DeadlineQueue.drop_fewer (P := fun _ => True) s.queue (j := i) trivial
    have hgone := drop_gone k.kept i
    by_cases hi : i ∈ s.queue.pending
    · have hr : (s.queue.drop i).1 = true := by simp [DeadlineQueue.drop, hi]
      simp only [hr, if_true, settleOnce, Function.update_idem, Function.update_self]
      refine k.update hj _ _ s.microtasks hd.symm (k.kept.drop i) f.added f.pending
        (fun i' hne => ?_) (fun _ _ => rfl) (fun i' h => ?_) (fun h => by cases h)
      · have hii : i' ≠ i := fun e => hne (e ▸ hown)
        rw [drop_taken hi, if_neg hii, Nat.add_zero]
      · obtain rfl : i = i' := Option.some.inj h
        refine ⟨?_, fun _ => hgone⟩
        rw [drop_taken hi, if_pos rfl]
        simp only
        omega
    · have hr : (s.queue.drop i).1 = false := by simp [DeadlineQueue.drop, hi]
      simp only [hr, Bool.false_eq_true, if_false]
      refine k.update hj _ s.queue s.microtasks hd.symm k.kept rfl (fun _ h => h) (fun _ _ => rfl)
        (fun _ _ => rfl) (fun i' h => ?_) (fun h => by cases h)
      obtain rfl : i = i' := Option.some.inj h
      exact ⟨hcount, fun _ => hi⟩

/-- A microtask is one of a call with a deadline. -/
theorem Settled.microtask (k : s.Settled) {j : Nat} {rest : List Nat} (hm : s.microtasks = j :: rest) :
    ({ s with microtasks := rest }.settleOnce j).Settled := by
  have hmem : j ∈ s.microtasks := by simp [hm]
  have hj : j < s.calls := by
    by_contra hno
    exact k.no_task (not_lt.1 hno) hmem
  obtain ⟨i, hd⟩ : ∃ i, (s.call j).deadline = some i := by
    cases hd : (s.call j).deadline with
    | none => exact absurd hmem (k.infinite j hd).1
    | some i => exact ⟨i, rfl⟩
  obtain ⟨hown, hcount, hans⟩ := k.finite j i hd
  refine k.update hj _ s.queue rest rfl k.kept rfl (fun _ h => h) (fun _ _ => rfl)
    (fun j' hne => ?_) (fun i' h => ?_) (fun h => ?_)
  · rw [hm, List.count_cons_of_ne hne.symm]
  · obtain rfl : i = i' := Option.some.inj (hd.symm.trans h)
    rw [hm, List.count_cons_self] at hcount
    exact ⟨by simp only; omega, hans⟩
  · have h : (s.call j).deadline = none := h
    rw [hd] at h
    cases h

theorem Settled.step (k : s.Settled) (e : Event) : (s.step e).Settled := by
  cases e with
  | call remainingMs drops => exact k.call remainingMs drops
  | answer j =>
    simp only [HostCallQueue.step]
    split
    · rename_i h
      exact k.answer h.1 h.2
    · exact k
  | microtask =>
    simp only [HostCallQueue.step]
    split
    · exact k
    · rename_i j rest hm
      exact k.microtask hm
  | add t drops => exact k.add t drops
  | drop i =>
    simp only [HostCallQueue.step]
    split
    · rename_i hi
      have hi : s.owner i = none := by simpa using hi
      have f := DeadlineQueue.drop_fewer (P := fun i => s.owner i = none) s.queue hi
      have hq := k.onQueue (k.kept.drop i) f
      have htasks : (s.onQueue (s.queue.drop i).2).microtasks = s.microtasks := by
        simp [HostCallQueue.onQueue, DeadlineQueue.drop_expired]
      have heq : s.onQueue (s.queue.drop i).2 = { s with queue := (s.queue.drop i).2 } := by
        rw [← htasks]
        rfl
      rwa [heq] at hq
    · exact k
  | elapse ms => exact { k with kept := k.kept.step (.elapse ms) }
  | timer drops =>
    exact k.onQueue (k.kept.fire _) (k.kept.fire_fewer (others_unowned s drops))
  | disarmAll =>
    exact { k with
      finite := fun j i h => by
        obtain ⟨hown, hcount, hans⟩ := k.finite j i h
        exact ⟨hown, hcount, fun _ hm => by cases hm⟩
      kept := k.kept.disarmAll }

theorem Settled.run (es : List Event) : ∀ {s : HostCallQueue}, s.Settled → (s.run es).Settled := by
  induction es with
  | nil => exact fun k => k
  | cons e es ih => exact fun k => ih (k.step e)

/-- A call has settled once, or waits for its answer with its deadline still pending, or for its
microtask, or was disarmed. -/
structure Once (s : HostCallQueue) (j : Nat) : Prop where
  once : (s.call j).settles ≤ 1
  waits : (s.call j).settles = 0 →
    ((s.call j).deadline = none ∧ (s.call j).answered = false) ∨ j ∈ s.microtasks ∨
    ∃ i, (s.call j).deadline = some i ∧
      (i ∈ s.queue.pending ∧ (s.call j).answered = false ∨ i ∈ s.queue.disarmed)

theorem Settled.once (k : s.Settled) (j : Nat) : s.Once j := by
  cases hd : (s.call j).deadline with
  | none =>
    obtain ⟨-, hset⟩ := k.infinite j hd
    refine ⟨by rw [hset]; split <;> omega, fun hz => .inl ⟨hd, ?_⟩⟩
    rw [hset] at hz
    by_contra hno
    rw [Bool.not_eq_false] at hno
    simp [hno] at hz
  | some i =>
    obtain ⟨hown, hcount, hans⟩ := k.finite j i hd
    have hadded : i < s.queue.added := by
      by_contra hno
      rw [k.unowned i (not_lt.1 hno)] at hown
      cases hown
    have hfate := k.kept.fates i
    rw [if_pos hadded] at hfate
    simp only [DeadlineQueue.fate] at hfate
    simp only [taken] at hcount
    refine ⟨by omega, fun hz => .inr ?_⟩
    by_cases hm : j ∈ s.microtasks
    · exact .inl hm
    · refine .inr ⟨i, hd, ?_⟩
      rw [List.count_eq_zero.2 hm] at hcount
      by_cases hp : i ∈ s.queue.pending
      · refine .inl ⟨hp, ?_⟩
        by_contra hno
        rw [Bool.not_eq_false] at hno
        exact hans hno hp
      · rw [List.count_eq_zero.2 hp] at hfate
        exact .inr (List.count_pos_iff.1 (by omega))

end HostCallQueue

namespace DeadlineQueue

/-- The timer is there for whatever is pending, each deadline ends in one way, and what expires
does so in time. -/
structure Prompt (q : DeadlineQueue) : Prop where
  armed : q.pending ≠ [] → ∃ t, q.timerAt = some t ∧ t ≤ q.now + RealmQueue.MAX_TIMEOUT ∧
    ∀ i ∈ q.pending, t ≤ q.at' i + 1
  fates : ∀ i, q.fate i = if i < q.added then 1 else 0
  due : ∀ e, ∀ x ∈ (q.step e).expired, x ∈ q.expired ∨ x.1 = q.added ∨ q.Due x
  fired : ∀ t drops, q.timerAt = some t → t ≤ q.now →
    ∀ i ∈ (q.fire drops).pending, 1 ≤ q.at' i - q.now

theorem Kept.prompt {q : DeadlineQueue} (k : q.Kept) : q.Prompt where
  armed := fun hne => by
    obtain ⟨i, hi⟩ := List.exists_mem_of_ne_nil _ hne
    obtain ⟨t, ht, -⟩ := k.soon i hi
    refine ⟨t, ht, k.near t ht, fun j hj => ?_⟩
    obtain ⟨t', ht', hle⟩ := k.soon j hj
    obtain rfl : t = t' := Option.some.inj (ht.symm.trans ht')
    exact hle
  fates := k.fates
  due := fun e => k.step_due e
  fired := fun t drops ht hle => k.fired ht hle drops

end DeadlineQueue

namespace HostCallQueue

/-- The queue in every run, and the host calls that settle by it. -/
theorem run_deadlines (now : ℚ) :
    (∀ es, ((DeadlineQueue.create now).run es).Prompt) ∧
      ∀ es j, ((create now).run es).Once j :=
  ⟨fun es => ((DeadlineQueue.create_kept now).run es).prompt,
    fun es j => ((create_settled now).run es).once j⟩

end HostCallQueue

end SeedTransport

