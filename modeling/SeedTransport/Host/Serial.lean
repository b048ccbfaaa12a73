import SeedTransport.Host.RealmQueue

set_option autoImplicit false

namespace SeedTransport

/-! Entry to a realm is serialized, in the order calls are made. A call whose deadline is
found due by a call made from inside its own invocation is settled and gives the realm away
while its invocation goes on, since that invocation is not recorded yet. -/

namespace Stand

def isOn : Stand → Bool
  | .onStack _ => true
  | _ => false

/-- Started, and neither settled nor cancelled. -/
def isLive : Stand → Bool
  | .onStack false => true
  | .live _ => true
  | _ => false

/-- Holds the realm: on the stack, or live and not deferred. -/
def holds : Stand → Bool
  | .onStack _ => true
  | .live false => true
  | _ => false

/-- Its caller is going to be told of its end. -/
def tells : Stand → Bool
  | .onStack _ => true
  | .live _ => true
  | .ended => true
  | _ => false

/-- Started, and no longer in need of the realm. -/
def lent : Stand → Bool
  | .live true => true
  | .ended => true
  | .done => true
  | _ => false

/-- Not running. -/
def isRest : Stand → Bool
  | .unstarted => true
  | .ended => true
  | .done => true
  | _ => false

/-- What a cancellation leaves. -/
def cancelled : Stand → Stand
  | .live _ => .ended
  | s => s

theorem holds_of_rest {s : Stand} (h : s.isRest = true) : s.holds = false ∧ s.isOn = false := by
  cases s with
  | onStack b => simp [isRest] at h
  | live d => simp [isRest] at h
  | unstarted => exact ⟨rfl, rfl⟩
  | ended => exact ⟨rfl, rfl⟩
  | done => exact ⟨rfl, rfl⟩

theorem holds_of_lent {s : Stand} (h : s.lent = true) :
    s.holds = false ∧ s.isOn = false ∧ s ≠ .unstarted := by
  cases s with
  | onStack b => simp [lent] at h
  | live d =>
    cases d with
    | true => exact ⟨rfl, rfl, by simp⟩
    | false => simp [lent] at h
  | unstarted => simp [lent] at h
  | ended => exact ⟨rfl, rfl, by simp⟩
  | done => exact ⟨rfl, rfl, by simp⟩

theorem lent_cancelled {s : Stand} (h : s.lent = true) : s.cancelled.lent = true := by
  cases s with
  | onStack b => simp [lent] at h
  | live d => rfl
  | unstarted => simp [lent] at h
  | ended => rfl
  | done => rfl

theorem isRest_cancelled {s : Stand} (h : s.isOn = false) : s.cancelled.isRest = true := by
  cases s with
  | onStack b => simp [isOn] at h
  | live d => rfl
  | unstarted => rfl
  | ended => rfl
  | done => rfl

end Stand

namespace RealmQueue

/-- What holds of the queue between two steps; `x` is an entry in the middle of its call or
of its turn. -/
structure KeptBut (x : Option Nat) (q : RealmQueue) : Prop where
  /-- An invocation that holds the realm is the running one. -/
  holds : ∀ i, (q.entries i).stand.holds = true → q.running = some i
  /-- The running one gives the realm back at its end, or on the next turn. -/
  holder : ∀ i, q.running = some i →
    (q.entries i).stand.holds = true ∨ (q.entries i).stand = .ended ∨ i ∈ q.releases
  lent : ∀ i ∈ q.releases, i < q.calls ∧ (q.entries i).stand.lent = true
  stacked : ∀ i, q.stack = .invoking i ↔ (q.entries i).stand.isOn = true
  pumped : q.stack = .idle → q.waiting ≠ [] → q.running = none → q.pumping = true
  sorted : q.waiting.Pairwise (· < ·)
  queued : ∀ w ∈ q.waiting, w < q.calls ∧ (q.entries w).stand = .unstarted
  inOrder : (q.entered.map Prod.fst).Pairwise (· < ·)
  before : ∀ e ∈ q.entered, e.1 < q.calls ∧ ∀ w ∈ q.waiting, e.1 < w
  prompt : ∀ e ∈ q.entered, ∀ t, (q.entries e.1).at' = some t → e.2 < t
  once : (q.answers.map Prod.fst).Nodup
  answered : ∀ i, i ∈ q.answers.map Prod.fst ↔ (q.entries i).settled = true
  unmade : ∀ i, q.calls ≤ i → q.entries i = ⟨none, false, .unstarted⟩
  /-- A settled caller's invocation does not run. -/
  spent : ∀ i, (q.entries i).settled = true → (q.entries i).stand.isRest = true
  /-- A caller not settled waits its turn, or is told of its invocation's end. -/
  owed : ∀ i, i < q.calls → x ≠ some i → (q.entries i).settled = false →
    i ∈ q.waiting ∨ (q.entries i).stand.tells = true

/-- What holds between two events. -/
def Kept (q : RealmQueue) : Prop := q.KeptBut none

theorem kept_create (d : Ms) : (create d).Kept where
  holds := by simp [create, Stand.holds]
  holder := by simp [create]
  lent := by simp [create]
  stacked := by simp [create, Stand.isOn]
  pumped := by simp [create]
  sorted := List.Pairwise.nil
  queued := by simp [create]
  inOrder := List.Pairwise.nil
  before := by simp [create]
  prompt := by simp [create]
  once := List.nodup_nil
  answered := by simp [create]
  unmade := fun _ _ => rfl
  spent := by simp [create]
  owed := by simp [create]

/-! ### The end of a call -/

/-- A caller is settled, its invocation comes to rest, and the realm is given on. -/
def conclude (i : Nat) (a : Answer) (s : Stand) (q : RealmQueue) : RealmQueue :=
  ((q.finish i a).setStand i s).release i

theorem cancel_eq (i : Nat) (q : RealmQueue) :
    q.cancel i = q.setStand i (q.entries i).stand.cancelled := by
  have hsame : ∀ s, (q.entries i).stand = s → q.setStand i s = q := by
    intro s hs
    subst hs
    simp [setStand, setEntry]
  unfold cancel
  cases hs : (q.entries i).stand with
  | live d => rfl
  | onStack b => exact (hsame _ hs).symm
  | unstarted => exact (hsame _ hs).symm
  | ended => exact (hsame _ hs).symm
  | done => exact (hsame _ hs).symm

theorem finish_stand (i : Nat) (a : Answer) (q : RealmQueue) (j : Nat) :
    ((q.finish i a).entries j).stand = (q.entries j).stand := by
  unfold finish
  split
  · rfl
  · simp only [setEntry]
    by_cases hj : j = i
    · subst hj
      simp
    · simp [hj]

theorem expire_eq (i : Nat) (q : RealmQueue) :
    q.expire i = q.conclude i .late (q.entries i).stand.cancelled := by
  unfold expire conclude
  rw [cancel_eq, finish_stand]

section Conclude

variable {i : Nat} {a : Answer} {s : Stand} {q : RealmQueue}

/-- What the end of a call leaves alone. -/
structure Left (q q' : RealmQueue) : Prop where
  defaultDeadlineMs : q'.defaultDeadlineMs = q.defaultDeadlineMs
  now : q'.now = q.now
  ready : q'.ready = q.ready
  calls : q'.calls = q.calls
  waiting : q'.waiting = q.waiting
  stack : q'.stack = q.stack
  entered : q'.entered = q.entered
  releases : q'.releases = q.releases

theorem finish_left (i : Nat) (a : Answer) (q : RealmQueue) : Left q (q.finish i a) := by
  unfold finish
  split <;> exact ⟨rfl, rfl, rfl, rfl, rfl, rfl, rfl, rfl⟩

theorem pump_left (q : RealmQueue) : Left q q.pump := by
  unfold pump
  split <;> exact ⟨rfl, rfl, rfl, rfl, rfl, rfl, rfl, rfl⟩

theorem release_left (i : Nat) (q : RealmQueue) : Left q (q.release i) := by
  unfold release
  split
  · have h := pump_left { q with running := none }
    exact ⟨h.1, h.2, h.3, h.4, h.5, h.6, h.7, h.8⟩
  · exact ⟨rfl, rfl, rfl, rfl, rfl, rfl, rfl, rfl⟩

theorem Left.trans {q q' q'' : RealmQueue} (h : Left q q') (h' : Left q' q'') : Left q q'' :=
  ⟨h'.1.trans h.1, h'.2.trans h.2, h'.3.trans h.3, h'.4.trans h.4, h'.5.trans h.5, h'.6.trans h.6,
    h'.7.trans h.7, h'.8.trans h.8⟩

theorem conclude_left : Left q (q.conclude i a s) := by
  have h1 := finish_left i a q
  have h2 : Left (q.finish i a) ((q.finish i a).setStand i s) :=
    ⟨rfl, rfl, rfl, rfl, rfl, rfl, rfl, rfl⟩
  exact (h1.trans h2).trans (release_left i _)

@[simp] theorem pump_entries (q : RealmQueue) :
    q.pump.entries = q.entries ∧ q.pump.answers = q.answers ∧ q.pump.running = q.running ∧
      q.pump.pending = q.pending ∧ q.pump.timerAt = q.timerAt := by
  unfold pump
  split <;> exact ⟨rfl, rfl, rfl, rfl, rfl⟩

theorem release_entries (i : Nat) (q : RealmQueue) :
    (q.release i).entries = q.entries ∧ (q.release i).answers = q.answers ∧
      (q.release i).pending = q.pending ∧ (q.release i).timerAt = q.timerAt := by
  unfold release
  split
  · obtain ⟨h1, h2, -, h4, h5⟩ := pump_entries { q with running := none }
    exact ⟨h1, h2, h4, h5⟩
  · exact ⟨rfl, rfl, rfl, rfl⟩

theorem finish_entries (i : Nat) (a : Answer) (q : RealmQueue) :
    (q.finish i a).entries = Function.update q.entries i { q.entries i with settled := true } ∧
      (q.finish i a).answers =
        (if (q.entries i).settled then q.answers else q.answers ++ [(i, a)]) ∧
      (q.finish i a).running = q.running ∧ (q.finish i a).pumping = q.pumping := by
  unfold finish
  split
  · rename_i hs
    refine ⟨?_, rfl, rfl, rfl⟩
    rw [eq_comm, Function.update_eq_self_iff]
    rw [← hs]
  · exact ⟨rfl, rfl, rfl, rfl⟩

theorem conclude_entries :
    (q.conclude i a s).entries = Function.update q.entries i ⟨(q.entries i).at', true, s⟩ := by
  unfold conclude
  rw [(release_entries i _).1]
  simp [setStand, setEntry, (finish_entries i a q).1]

theorem conclude_answers :
    (q.conclude i a s).answers =
      if (q.entries i).settled then q.answers else q.answers ++ [(i, a)] := by
  unfold conclude
  rw [(release_entries i _).2.1]
  exact (finish_entries i a q).2.1

theorem conclude_running :
    (q.conclude i a s).running = if q.running = some i then none else q.running := by
  unfold conclude release
  have hrun : ((q.finish i a).setStand i s).running = q.running := (finish_entries i a q).2.2.1
  rw [hrun]
  split
  · exact (pump_entries _).2.2.1
  · exact hrun

/-- With calls waiting and the realm free, a pump is on its way. -/
theorem conclude_pumping (hw : q.waiting ≠ []) (hr : (q.conclude i a s).running = none)
    (hp : q.running = none → q.pumping = true) : (q.conclude i a s).pumping = true := by
  rw [conclude_running] at hr
  unfold conclude release
  have hrun : ((q.finish i a).setStand i s).running = q.running := (finish_entries i a q).2.2.1
  have hpump : ((q.finish i a).setStand i s).pumping = q.pumping := (finish_entries i a q).2.2.2
  have hwait : ((q.finish i a).setStand i s).waiting = q.waiting := (finish_left i a q).waiting
  rw [hrun]
  split
  · unfold pump
    split
    · rename_i h
      rcases h with h | h | h
      · exact h
      · simp at h
      · simp only [hwait] at h
        exact absurd h hw
    · rfl
  · rename_i hne
    rw [if_neg hne] at hr
    rw [hpump]
    exact hp hr

end Conclude

/-- The end of a call keeps everything, and an entry in the middle of its call is through. -/
theorem KeptBut.conclude {x : Option Nat} {q : RealmQueue} (h : q.KeptBut x) {i : Nat} {a : Answer}
    {s : Stand} (hi : i < q.calls) (hon : (q.entries i).stand.isOn = false)
    (hs : s.isRest = true) (hw : i ∈ q.waiting → s = .unstarted)
    (hlent : (q.entries i).stand.lent = true → s.lent = true) :
    (q.conclude i a s).KeptBut (if x = some i then none else x) := by
  have hl := @conclude_left i a s q
  have he := @conclude_entries i a s q
  have self : (q.conclude i a s).entries i = ⟨(q.entries i).at', true, s⟩ := by simp [he]
  have other : ∀ j, j ≠ i → (q.conclude i a s).entries j = q.entries j := by
    intro j hj
    simp [he, hj]
  obtain ⟨hsh, hso⟩ := Stand.holds_of_rest hs
  refine ⟨fun j hj => ?_, fun j hj => ?_, fun j hj => ?_, fun j => ?_, fun hidle hwait hrun => ?_, ?_,
    fun w hw' => ?_, ?_, fun e he' => ?_, fun e he' t ht => ?_, ?_, fun j => ?_, fun j hj => ?_, fun j hj => ?_,
    fun j hj hxj hset => ?_⟩
  · by_cases hji : j = i
    · subst hji
      simp [self, hsh] at hj
    · rw [other j hji] at hj
      have := h.holds j hj
      rw [conclude_running, this, if_neg]
      simpa using hji
  · rw [conclude_running] at hj
    split at hj
    · simp at hj
    · rename_i hne
      have hji : j ≠ i := by
        rintro rfl
        exact hne hj
      rw [other j hji, hl.releases]
      exact h.holder j hj
  · rw [hl.releases] at hj
    rw [hl.calls]
    obtain ⟨h1, h2⟩ := h.lent j hj
    by_cases hji : j = i
    · subst hji
      exact ⟨h1, by rw [self]; exact hlent h2⟩
    · exact ⟨h1, by rw [other j hji]; exact h2⟩
  · rw [hl.stack]
    by_cases hji : j = i
    · subst hji
      rw [self, h.stacked, hon, hso]
    · rw [other j hji]
      exact h.stacked j
  · rw [hl.stack] at hidle
    rw [hl.waiting] at hwait
    exact conclude_pumping hwait hrun (h.pumped hidle hwait)
  · rw [hl.waiting]
    exact h.sorted
  · rw [hl.waiting] at hw'
    rw [hl.calls]
    obtain ⟨h1, h2⟩ := h.queued w hw'
    by_cases hwi : w = i
    · subst hwi
      exact ⟨h1, by rw [self]; exact hw hw'⟩
    · exact ⟨h1, by rw [other w hwi]; exact h2⟩
  · rw [hl.entered]
    exact h.inOrder
  · rw [hl.entered] at he'
    rw [hl.calls, hl.waiting]
    exact h.before e he'
  · rw [hl.entered] at he'
    refine h.prompt e he' t ?_
    by_cases hei : e.1 = i
    · rw [hei, self] at ht
      rw [hei]
      exact ht
    · rwa [other _ hei] at ht
  · rw [conclude_answers]
    split
    · exact h.once
    · rename_i hns
      rw [List.map_append, List.nodup_append]
      refine ⟨h.once, List.nodup_singleton _, ?_⟩
      rintro c hc d hd rfl
      obtain rfl : c = i := by simpa using hd
      exact hns ((h.answered c).1 hc)
  · rw [conclude_answers]
    by_cases hji : j = i
    · subst hji
      rw [self]
      simp only [iff_true]
      split
      · rename_i hset
        exact (h.answered j).2 hset
      · simp
    · rw [other j hji, ← h.answered j]
      split
      · rfl
      · simp [hji]
  · rw [hl.calls] at hj
    have hji : j ≠ i := by omega
    rw [other j hji]
    exact h.unmade j hj
  · by_cases hji : j = i
    · subst hji
      rw [self]
      exact hs
    · rw [other j hji] at hj ⊢
      exact h.spent j hj
  · rw [hl.calls] at hj
    have hji : j ≠ i := by
      rintro rfl
      simp [self] at hset
    rw [other j hji] at hset ⊢
    rw [hl.waiting]
    refine h.owed j hj ?_ hset
    rintro rfl
    rw [if_neg (by simpa using hji)] at hxj
    exact hxj rfl

theorem KeptBut.congr {x : Option Nat} {q q' : RealmQueue} (h : q.KeptBut x) (hl : Left q q')
    (he : q'.entries = q.entries) (ha : q'.answers = q.answers) (hr : q'.running = q.running)
    (hp : q'.pumping = q.pumping) : q'.KeptBut x := by
  obtain ⟨-, -, -, hc, hw, hs, hen, hre⟩ := hl
  refine ⟨?_, ?_, ?_, ?_, ?_, ?_, ?_, ?_, ?_, ?_, ?_, ?_, ?_, ?_, ?_⟩
  · rw [he, hr]; exact h.holds
  · rw [he, hr, hre]; exact h.holder
  · rw [hre, hc, he]; exact h.lent
  · rw [he, hs]; exact h.stacked
  · rw [hs, hw, hr, hp]; exact h.pumped
  · rw [hw]; exact h.sorted
  · rw [hw, hc, he]; exact h.queued
  · rw [hen]; exact h.inOrder
  · rw [hen, hc, hw]; exact h.before
  · rw [hen, he]; exact h.prompt
  · rw [ha]; exact h.once
  · rw [ha, he]; exact h.answered
  · rw [hc, he]; exact h.unmade
  · rw [he]; exact h.spent
  · rw [hc, he, hw]; exact h.owed

theorem KeptBut.weaken {q : RealmQueue} (h : q.Kept) (x : Option Nat) : q.KeptBut x :=
  { h with owed := fun i hi _ hs => h.owed i hi (by simp) hs }

/-- An entry that was settled in the middle of its call is through. -/
theorem KeptBut.through {q : RealmQueue} {i : Nat} (h : q.KeptBut (some i))
    (hs : (q.entries i).settled = true) : q.Kept := by
  refine { h with owed := fun j hj _ hset => h.owed j hj ?_ hset }
  rintro hij
  obtain rfl := Option.some.inj hij
  simp [hs] at hset

theorem KeptBut.keep {x : Option Nat} {q : RealmQueue} {i : Nat}
    (h : q.KeptBut (if x = some i then none else x)) : q.KeptBut x := by
  split at h
  · exact KeptBut.weaken h x
  · exact h

/-! ### The deadline queue -/

/-- What the deadline queue lists: the callers with a deadline that are not settled, while
the realm stands. -/
structure Listed (q : RealmQueue) : Prop where
  nodup : q.pending.Nodup
  listed : ∀ d ∈ q.pending, d < q.calls ∧ (q.entries d).settled = false ∧
    ∃ t, (q.entries d).at' = some t
  all : q.ready = true → ∀ i, i < q.calls → (q.entries i).settled = false →
    ∀ t, (q.entries i).at' = some t → i ∈ q.pending

/-- The timer fires within a millisecond of every deadline. -/
def Armed (q : RealmQueue) : Prop :=
  ∀ i ∈ q.pending, ∀ t, (q.entries i).at' = some t → ∃ timer, q.timerAt = some timer ∧ timer ≤ t + 1

theorem conclude_pending {i : Nat} {a : Answer} {s : Stand} {q : RealmQueue} :
    (q.conclude i a s).pending =
        (if (q.entries i).settled then q.pending else q.pending.erase i) ∧
      (q.conclude i a s).timerAt = q.timerAt := by
  unfold conclude
  obtain ⟨-, -, h3, h4⟩ := release_entries i ((q.finish i a).setStand i s)
  rw [h3, h4]
  simp only [setStand, setEntry, finish]
  split <;> exact ⟨rfl, rfl⟩

section Deadlines

variable {q : RealmQueue} {i : Nat} {a : Answer} {s : Stand}

theorem Listed.conclude (h : q.Listed) : (q.conclude i a s).Listed := by
  have hl := @conclude_left i a s q
  have he := @conclude_entries i a s q
  obtain ⟨hp, -⟩ := @conclude_pending i a s q
  have hout : (q.entries i).settled = true → i ∉ q.pending := by
    intro hs hi
    simp [(h.listed i hi).2.1] at hs
  have hmem : ∀ d, d ∈ (q.conclude i a s).pending ↔ d ∈ q.pending ∧ d ≠ i := by
    intro d
    rw [hp]
    split
    · rename_i hs
      refine ⟨fun hd => ⟨hd, ?_⟩, fun hd => hd.1⟩
      rintro rfl
      exact hout hs hd
    · rw [h.nodup.mem_erase_iff]
      exact and_comm
  refine ⟨?_, fun d hd => ?_, fun hr j hj hset t ht => ?_⟩
  · rw [hp]
    split
    · exact h.nodup
    · exact h.nodup.erase i
  · obtain ⟨hd, hne⟩ := (hmem d).1 hd
    rw [hl.calls, he, Function.update_of_ne hne]
    exact h.listed d hd
  · rw [hl.ready] at hr
    rw [hl.calls] at hj
    have hji : j ≠ i := by
      rintro rfl
      simp [he] at hset
    rw [he, Function.update_of_ne hji] at hset ht
    exact (hmem j).2 ⟨h.all hr j hj hset t ht, hji⟩

theorem Armed.conclude (h : q.Armed) : (q.conclude i a s).Armed := by
  intro d hd t ht
  obtain ⟨hp, htimer⟩ := @conclude_pending i a s q
  rw [hp] at hd
  rw [htimer]
  have hd' : d ∈ q.pending := by
    split at hd
    · exact hd
    · exact List.mem_of_mem_erase hd
  refine h d hd' t ?_
  rw [conclude_entries] at ht
  by_cases hdi : d = i
  · subst hdi
    simpa using ht
  · simpa [hdi] using ht

/-- `expire` of a deadline that was just taken from the queue. -/
theorem armOne_due (hd : q.isDue i = true) :
    q.armOne i = conclude i .late (q.entries i).stand.cancelled
      { q with pending := q.pending.erase i } := by
  simp only [armOne, hd, if_true]
  exact expire_eq i _

theorem Listed.armOne (h : q.Listed) (i : Nat) : (q.armOne i).Listed := by
  by_cases hd : q.isDue i = true
  · -- taken from the queue and settled: the queue is that of `conclude` alone
    have hc := @Listed.conclude q i .late (q.entries i).stand.cancelled h
    rw [armOne_due hd]
    obtain ⟨hp, -⟩ := @conclude_pending i .late (q.entries i).stand.cancelled q
    obtain ⟨hp', -⟩ := @conclude_pending i .late (q.entries i).stand.cancelled
      { q with pending := q.pending.erase i }
    have hl := @conclude_left i .late (q.entries i).stand.cancelled q
    have hl' := @conclude_left i .late (q.entries i).stand.cancelled
      { q with pending := q.pending.erase i }
    have he := @conclude_entries i .late (q.entries i).stand.cancelled q
    have he' := @conclude_entries i .late (q.entries i).stand.cancelled
      { q with pending := q.pending.erase i }
    have hsub : ∀ d, d ∈ (RealmQueue.conclude i .late (q.entries i).stand.cancelled
        { q with pending := q.pending.erase i }).pending ↔
        d ∈ (q.conclude i .late (q.entries i).stand.cancelled).pending := by
      intro d
      rw [hp, hp']
      have hnot : i ∉ q.pending.erase i := h.nodup.not_mem_erase
      have herase : (q.pending.erase i).erase i = q.pending.erase i := List.erase_of_not_mem hnot
      simp only [herase, ite_self]
      split
      · rename_i hs
        have : i ∉ q.pending := fun hi => by simp [(h.listed i hi).2.1] at hs
        rw [List.erase_of_not_mem this]
      · rfl
    refine ⟨?_, fun d hd' => ?_, fun hr j hj hset t ht => ?_⟩
    · rw [hp']
      split
      · exact h.nodup.erase i
      · exact (h.nodup.erase i).erase i
    · rw [hl'.calls, he']
      have := hc.listed d ((hsub d).1 hd')
      rwa [hl.calls, he] at this
    · rw [hsub]
      refine hc.all ?_ j ?_ ?_ t ?_
      · rw [hl.ready]; rwa [hl'.ready] at hr
      · rw [hl.calls]; rwa [hl'.calls] at hj
      · rw [he]; rwa [he'] at hset
      · rw [he]; rwa [he'] at ht
  · simpa [RealmQueue.armOne, hd] using h

/-- A pass over due deadlines, none of which is of an invocation on the stack. -/
theorem armOne_same (hon : q.isDue i = true → (q.entries i).stand.isOn = false) :
    Left q (q.armOne i) ∧ ∀ j, ((q.armOne i).entries j).at' = (q.entries j).at' ∧
      ((q.armOne i).entries j).stand.isOn = (q.entries j).stand.isOn ∧
      ((q.entries j).stand = .unstarted → ((q.armOne i).entries j).stand = .unstarted) := by
  by_cases hd : q.isDue i = true
  · rw [armOne_due hd]
    have hl := @conclude_left i .late (q.entries i).stand.cancelled
      { q with pending := q.pending.erase i }
    refine ⟨⟨hl.1, hl.2, hl.3, hl.4, hl.5, hl.6, hl.7, hl.8⟩, fun j => ?_⟩
    rw [conclude_entries]
    by_cases hj : j = i
    · subst hj
      have hr := Stand.isRest_cancelled (hon hd)
      refine ⟨by simp, by simp [(Stand.holds_of_rest hr).2, hon hd], fun hu => ?_⟩
      simp [hu, Stand.cancelled]
    · simp [hj]
  · have hsame : q.armOne i = q := by simp [armOne, hd]
    rw [hsame]
    exact ⟨⟨rfl, rfl, rfl, rfl, rfl, rfl, rfl, rfl⟩, fun _ => ⟨rfl, rfl, fun hu => hu⟩⟩

theorem KeptBut.armOne {x : Option Nat} (h : q.KeptBut x) (hi : i < q.calls)
    (hon : q.isDue i = true → (q.entries i).stand.isOn = false) : (q.armOne i).KeptBut x := by
  by_cases hd : q.isDue i = true
  · rw [armOne_due hd]
    have hq : KeptBut x { q with pending := q.pending.erase i } :=
      h.congr ⟨rfl, rfl, rfl, rfl, rfl, rfl, rfl, rfl⟩ rfl rfl rfl rfl
    refine (hq.conclude hi (hon hd) (Stand.isRest_cancelled (hon hd)) (fun hw => ?_)
      Stand.lent_cancelled).keep
    have := (h.queued i hw).2
    simp [this, Stand.cancelled]
  · simpa [RealmQueue.armOne, hd] using h

end Deadlines

/-- What a pass over the deadlines keeps. -/
structure Passed (x : Option Nat) (q q' : RealmQueue) : Prop where
  kept : q'.KeptBut x
  listed : q'.Listed
  left : Left q q'
  at' : ∀ j, (q'.entries j).at' = (q.entries j).at'
  unstarted : ∀ j, (q.entries j).stand = .unstarted → (q'.entries j).stand = .unstarted

theorem armAll {x : Option Nat} (ds : List Nat) {q : RealmQueue} (h : q.KeptBut x) (hl : q.Listed)
    (hds : ∀ d ∈ ds, d < q.calls ∧ (q.isDue d = true → (q.entries d).stand.isOn = false)) :
    Passed x q (ds.foldl armOne q) := by
  induction ds generalizing q with
  | nil => exact ⟨h, hl, ⟨rfl, rfl, rfl, rfl, rfl, rfl, rfl, rfl⟩, fun _ => rfl, fun _ hu => hu⟩
  | cons d ds ih =>
    obtain ⟨hd, hon⟩ := hds d List.mem_cons_self
    obtain ⟨hleft, hsame⟩ := armOne_same hon
    have hrest : ∀ e ∈ ds, e < (q.armOne d).calls ∧
        ((q.armOne d).isDue e = true → ((q.armOne d).entries e).stand.isOn = false) := by
      intro e he
      obtain ⟨h1, h2⟩ := hds e (List.mem_cons_of_mem d he)
      refine ⟨hleft.calls ▸ h1, fun hdue => ?_⟩
      rw [(hsame e).2.1]
      refine h2 ?_
      simpa only [isDue, (hsame e).1, hleft.now] using hdue
    obtain ⟨g1, g2, g3, g4, g5⟩ := ih (h.armOne hd hon) (hl.armOne d) hrest
    exact ⟨g1, g2, hleft.trans g3, fun j => (g4 j).trans (hsame j).1,
      fun j hu => g5 j ((hsame j).2.2 hu)⟩

theorem setTimer_same (q : RealmQueue) :
    Left q q.setTimer ∧ q.setTimer.entries = q.entries ∧ q.setTimer.answers = q.answers ∧
      q.setTimer.running = q.running ∧ q.setTimer.pumping = q.pumping ∧
      q.setTimer.pending = q.pending := by
  unfold setTimer
  split <;> exact ⟨⟨rfl, rfl, rfl, rfl, rfl, rfl, rfl, rfl⟩, rfl, rfl, rfl, rfl, rfl⟩

theorem armed_setTimer (q : RealmQueue) : q.setTimer.Armed := by
  intro i hi t ht
  obtain ⟨-, he, -, -, -, hp⟩ := setTimer_same q
  rw [hp] at hi
  rw [he] at ht
  have hmem : t ∈ q.pending.filterMap fun i => (q.entries i).at' :=
    List.mem_filterMap.2 ⟨i, hi, ht⟩
  unfold setTimer
  cases hm : (q.pending.filterMap fun i => (q.entries i).at').min? with
  | none =>
    rw [List.min?_eq_none_iff] at hm
    rw [hm] at hmem
    simp at hmem
  | some soonest =>
    have hle : soonest ≤ t := (List.min?_eq_some_iff.1 hm).2 t hmem
    refine ⟨_, rfl, ?_⟩
    have := min_le_left soonest (q.now + MAX_TIMEOUT)
    linarith

theorem arm_spec {x : Option Nat} {q : RealmQueue} (h : q.KeptBut x) (hl : q.Listed)
    (hds : ∀ d ∈ q.pending, q.isDue d = true → (q.entries d).stand.isOn = false) :
    Passed x q q.arm ∧ q.arm.Armed := by
  obtain ⟨h1, h2, h3, h4, h5⟩ := armAll q.pending h hl fun d hd => ⟨(hl.listed d hd).1, hds d hd⟩
  obtain ⟨g1, g2, g3, g4, g5, g6⟩ := setTimer_same (q.pending.foldl armOne q)
  refine ⟨⟨h1.congr g1 g2 g3 g4 g5, ?_, h3.trans g1, fun j => ?_, fun j hu => ?_⟩, armed_setTimer _⟩
  · refine ⟨?_, ?_, ?_⟩
    · rw [arm, g6]; exact h2.nodup
    · rw [arm, g6, g2, g1.calls]; exact h2.listed
    · rw [arm, g6, g2, g1.calls, g1.ready]; exact h2.all
  · rw [arm, g2]
    exact h4 j
  · rw [arm, g2]
    exact h5 j hu

/-! ### A call -/

/-- All that holds between two events. -/
structure Steady (q : RealmQueue) : Prop where
  kept : q.Kept
  listed : q.Listed
  armed : q.Armed

/-- The condition on a step: a call made inside an invocation that moves the timer finds that
invocation not due. -/
def Meets (q : RealmQueue) : Event → Prop
  | .call supplied =>
    ∀ j t, q.stack = .invoking j → q.ready = true → q.deadlineOf supplied = .ok (some t) →
      q.rearms t = true → q.isDue j = false
  | _ => True

section Call

variable {q : RealmQueue}

/-- An entry is made, with nobody settled on its account. -/
theorem KeptBut.made (h : q.Kept) (t : Option ℚ) :
    KeptBut (some q.calls) ({ q with calls := q.calls + 1 }.setEntry q.calls ⟨t, false, .unstarted⟩) := by
  have hnew := h.unmade q.calls (le_refl _)
  have hstand : ∀ j, (Function.update q.entries q.calls ⟨t, false, .unstarted⟩ j).stand =
      (q.entries j).stand := by
    intro j
    by_cases hj : j = q.calls
    · subst hj
      simp [hnew]
    · simp [hj]
  have hset : ∀ j, (Function.update q.entries q.calls ⟨t, false, .unstarted⟩ j).settled =
      (q.entries j).settled := by
    intro j
    by_cases hj : j = q.calls
    · subst hj
      simp [hnew]
    · simp [hj]
  refine ⟨fun j => ?_, fun j => ?_, fun j hj => ?_, fun j => ?_, h.pumped, h.sorted, fun w hw => ?_,
    h.inOrder, fun e he => ?_, fun e he t' ht => ?_, h.once, fun j => ?_, fun j hj => ?_, fun j => ?_,
    fun j hj hx hs => ?_⟩
  · simp only [setEntry, hstand]
    exact h.holds j
  · simp only [setEntry, hstand]
    exact h.holder j
  · simp only [setEntry, hstand]
    obtain ⟨h1, h2⟩ := h.lent j hj
    exact ⟨by omega, h2⟩
  · simp only [setEntry, hstand]
    exact h.stacked j
  · simp only [setEntry, hstand]
    obtain ⟨h1, h2⟩ := h.queued w hw
    exact ⟨by omega, h2⟩
  · obtain ⟨h1, h2⟩ := h.before e he
    exact ⟨Nat.lt_succ_of_lt h1, h2⟩
  · have hne : e.1 ≠ q.calls := Nat.ne_of_lt (h.before e he).1
    simp only [setEntry, Function.update_of_ne hne] at ht
    exact h.prompt e he t' ht
  · simp only [setEntry, hset]
    exact h.answered j
  · have hj' : q.calls + 1 ≤ j := hj
    have hne : j ≠ q.calls := by omega
    simp only [setEntry, Function.update_of_ne hne]
    exact h.unmade j (by omega)
  · simp only [setEntry, hstand, hset]
    exact h.spent j
  · simp only [setEntry, hset] at hs
    simp only [setEntry, hstand]
    have hj' : j < q.calls + 1 := hj
    have hne : j ≠ q.calls := fun hje => hx (by rw [hje])
    exact h.owed j (by omega) (by simp) hs

/-- An entry takes its place at the end of the queue. -/
theorem KeptBut.enqueue {i : Nat} (h : q.KeptBut (some i)) (hi : i < q.calls)
    (hu : (q.entries i).stand = .unstarted) (hw : ∀ w ∈ q.waiting, w < i)
    (he : ∀ e ∈ q.entered, e.1 < i) : (q.enqueue i).Kept := by
  unfold RealmQueue.enqueue
  split
  · rename_i hs
    exact h.through hs
  · have hl := pump_left { q with waiting := q.waiting ++ [i] }
    obtain ⟨p1, p2, p3, -, -⟩ := pump_entries { q with waiting := q.waiting ++ [i] }
    refine ⟨?_, ?_, ?_, ?_, fun _ hne hr => ?_, ?_, ?_, ?_, ?_, ?_, ?_, ?_, ?_, ?_, ?_⟩
    · rw [p1, p3]; exact h.holds
    · rw [p1, p3, hl.releases]; exact h.holder
    · rw [hl.releases, hl.calls, p1]; exact h.lent
    · rw [hl.stack, p1]; exact h.stacked
    · rw [p3] at hr
      have hrun : q.running = none := hr
      simp only [pump, hrun]
      split
      · rename_i hp
        simpa using hp
      · rfl
    · rw [hl.waiting]
      refine List.pairwise_append.2 ⟨h.sorted, List.pairwise_singleton _ _, fun w hw' j hj => ?_⟩
      obtain rfl := List.mem_singleton.1 hj
      exact hw w hw'
    · rw [hl.waiting, hl.calls, p1]
      intro w hw'
      rcases List.mem_append.1 hw' with hw' | hw'
      · exact h.queued w hw'
      · obtain rfl := List.mem_singleton.1 hw'
        exact ⟨hi, hu⟩
    · rw [hl.entered]; exact h.inOrder
    · rw [hl.entered, hl.calls, hl.waiting]
      intro e he'
      refine ⟨(h.before e he').1, fun w hw' => ?_⟩
      rcases List.mem_append.1 hw' with hw' | hw'
      · exact (h.before e he').2 w hw'
      · obtain rfl := List.mem_singleton.1 hw'
        exact he e he'
    · rw [hl.entered, p1]; exact h.prompt
    · rw [p2]; exact h.once
    · rw [p2, p1]; exact h.answered
    · rw [hl.calls, p1]; exact h.unmade
    · rw [p1]; exact h.spent
    · rw [hl.calls, hl.waiting, p1]
      intro j hj _ hs
      by_cases hji : j = i
      · exact Or.inl (by simp [hji])
      · rcases h.owed j hj (fun hx => hji (Option.some.inj hx).symm) hs with hj' | hj'
        · exact Or.inl (List.mem_append_left _ hj')
        · exact Or.inr hj'

/-- The deadline queue is blind to where invocations stand. -/
theorem Listed.restand {q' : RealmQueue} (h : q.Listed) (hp : q'.pending = q.pending)
    (ha : ∀ j, (q'.entries j).at' = (q.entries j).at')
    (hs : ∀ j, (q'.entries j).settled = (q.entries j).settled) (hc : q'.calls = q.calls)
    (hr : q'.ready = q.ready) : q'.Listed := by
  refine ⟨?_, fun d hd => ?_, fun hready j hj hset t ht => ?_⟩
  · rw [hp]
    exact h.nodup
  · rw [hp] at hd
    rw [hc, ha, hs]
    exact h.listed d hd
  · rw [hr] at hready
    rw [hc] at hj
    rw [hs] at hset
    rw [ha] at ht
    rw [hp]
    exact h.all hready j hj hset t ht

theorem Listed.congr {q' : RealmQueue} (h : q.Listed) (hp : q'.pending = q.pending)
    (he : q'.entries = q.entries) (hc : q'.calls = q.calls) (hr : q'.ready = q.ready) :
    q'.Listed :=
  h.restand hp (fun j => by rw [he]) (fun j => by rw [he]) hc hr

theorem Armed.restand {q' : RealmQueue} (h : q.Armed) (hp : q'.pending = q.pending)
    (ha : ∀ j, (q'.entries j).at' = (q.entries j).at') (ht : q'.timerAt = q.timerAt) :
    q'.Armed := by
  intro d hd t htd
  rw [hp] at hd
  rw [ha] at htd
  rw [ht]
  exact h d hd t htd

theorem Armed.congr {q' : RealmQueue} (h : q.Armed) (hp : q'.pending = q.pending)
    (he : q'.entries = q.entries) (ht : q'.timerAt = q.timerAt) : q'.Armed :=
  h.restand hp (fun j => by rw [he]) ht

/-- An entry without a deadline is not listed. -/
theorem Listed.untimed (h : q.Listed) :
    ({ q with calls := q.calls + 1 }.setEntry q.calls ⟨none, false, .unstarted⟩).Listed := by
  refine ⟨h.nodup, fun d hd => ?_, fun hr j hj hs t ht => ?_⟩
  · obtain ⟨h1, h2⟩ := h.listed d hd
    simp only [setEntry, Function.update_of_ne (Nat.ne_of_lt h1)]
    exact ⟨by omega, h2⟩
  · by_cases hjc : j = q.calls
    · subst hjc
      simp [setEntry] at ht
    · simp only [setEntry, Function.update_of_ne hjc] at hs ht
      have hj' : j < q.calls + 1 := hj
      exact h.all hr j (by omega) hs t ht

theorem Listed.timed (h : q.Listed) (t : ℚ) :
    Listed { { q with calls := q.calls + 1 }.setEntry q.calls ⟨some t, false, .unstarted⟩ with
      pending := q.pending ++ [q.calls] } := by
  have hout : q.calls ∉ q.pending := fun hin => Nat.lt_irrefl _ (h.listed _ hin).1
  refine ⟨?_, fun d hd => ?_, fun hr j hj hs t' ht => ?_⟩
  · refine List.nodup_append.2 ⟨h.nodup, List.nodup_singleton _, fun d hd c hc => ?_⟩
    obtain rfl := List.mem_singleton.1 hc
    exact fun hdc => hout (hdc ▸ hd)
  · rcases List.mem_append.1 hd with hd | hd
    · obtain ⟨h1, h2⟩ := h.listed d hd
      simp only [setEntry, Function.update_of_ne (Nat.ne_of_lt h1)]
      exact ⟨by omega, h2⟩
    · obtain rfl := List.mem_singleton.1 hd
      simp [setEntry]
  · by_cases hjc : j = q.calls
    · exact List.mem_append_right _ (by simp [hjc])
    · simp only [setEntry, Function.update_of_ne hjc] at hs ht
      have hj' : j < q.calls + 1 := hj
      exact List.mem_append_left _ (h.all hr j (by omega) hs t' ht)

theorem Armed.untimed (h : q.Armed) (hl : q.Listed) (t : Option ℚ) :
    ({ q with calls := q.calls + 1 }.setEntry q.calls ⟨t, false, .unstarted⟩).Armed := by
  intro d hd t' ht
  have hne : d ≠ q.calls := Nat.ne_of_lt (hl.listed d hd).1
  simp only [setEntry, Function.update_of_ne hne] at ht
  exact h d hd t' ht

/-- `add` settles or lists a new entry, and the timer is soon enough for it. -/
theorem add_spec (h : q.Steady) (t : ℚ)
    (hd : ∀ j, q.stack = .invoking j → q.rearms t = true → q.isDue j = false) :
    let q' := { q with calls := q.calls + 1 }.setEntry q.calls ⟨some t, false, .unstarted⟩
    Passed (some q.calls) q' (q'.add q.calls t) ∧ (q'.add q.calls t).Armed := by
  intro q'
  have hk : KeptBut (some q.calls) { q' with pending := q.pending ++ [q.calls] } :=
    (KeptBut.made h.kept (some t)).congr ⟨rfl, rfl, rfl, rfl, rfl, rfl, rfl, rfl⟩ rfl rfl rfl rfl
  have hl := h.listed.timed t
  have hcall : (q'.entries q.calls) = ⟨some t, false, .unstarted⟩ := by simp [q', setEntry]
  have hold : ∀ j, j ≠ q.calls → q'.entries j = q.entries j := by
    intro j hj
    simp [q', setEntry, hj]
  by_cases hr : q.rearms t = true
  · have hadd : q'.add q.calls t = arm { q' with pending := q.pending ++ [q.calls] } := by
      have hr' : q'.rearms t = true := hr
      simp only [add, hr', if_true]
      rfl
    rw [hadd]
    obtain ⟨⟨p1, p2, p3, p4, p5⟩, p6⟩ := arm_spec hk hl fun d hd' hdue => by
      by_cases hdc : d = q.calls
      · subst hdc
        exact congrArg (fun e => e.stand.isOn) hcall
      · by_contra hon
        simp only [Bool.not_eq_false] at hon
        have hst : q.stack = .invoking d := by
          rw [h.kept.stacked d]
          rw [← hold d hdc]
          exact hon
        have hdue' : q.isDue d = true := by
          rw [← hdue]
          simp only [isDue, hold d hdc]
          rfl
        rw [hd d hst hr] at hdue'
        cases hdue'
    exact ⟨⟨p1, p2, ⟨p3.1, p3.2, p3.3, p3.4, p3.5, p3.6, p3.7, p3.8⟩, p4, p5⟩, p6⟩
  · have hadd : q'.add q.calls t = { q' with pending := q.pending ++ [q.calls] } := by
      have hr' : ¬ q'.rearms t = true := hr
      simp only [add, if_neg hr']
      rfl
    rw [hadd]
    refine ⟨⟨hk, hl, ⟨rfl, rfl, rfl, rfl, rfl, rfl, rfl, rfl⟩, fun _ => rfl, fun _ hu => hu⟩,
      fun d hd' t' ht => ?_⟩
    rcases List.mem_append.1 hd' with hd' | hd'
    · exact h.armed.untimed h.listed (some t) d hd' t' ht
    · obtain rfl := List.mem_singleton.1 hd'
      have htt : t = t' := by
        have ht' : (q'.entries q.calls).at' = some t' := ht
        rw [hcall] at ht'
        exact Option.some.inj ht'
      subst htt
      simp only [rearms] at hr
      split at hr
      · simp at hr
      · rename_i timer htimer
        refine ⟨timer, htimer, ?_⟩
        simp only [decide_eq_true_eq, not_lt] at hr
        linarith

theorem enqueue_same (i : Nat) (q : RealmQueue) :
    (q.enqueue i).pending = q.pending ∧ (q.enqueue i).entries = q.entries ∧
      (q.enqueue i).calls = q.calls ∧ (q.enqueue i).ready = q.ready ∧
      (q.enqueue i).timerAt = q.timerAt := by
  unfold enqueue
  split
  · exact ⟨rfl, rfl, rfl, rfl, rfl⟩
  · obtain ⟨p1, -, -, p4, p5⟩ := pump_entries { q with waiting := q.waiting ++ [i] }
    have hl := pump_left { q with waiting := q.waiting ++ [i] }
    exact ⟨p4, p1, hl.calls, hl.ready, p5⟩

/-- A refused call is one that is made and settled at once. -/
theorem reject_eq (h : q.Steady) (a : Answer) :
    { q with calls := q.calls + 1 }.reject q.calls a =
      ({ q with calls := q.calls + 1 }.setEntry q.calls ⟨none, false, .unstarted⟩).conclude q.calls a
        .unstarted := by
  have hrun : q.running ≠ some q.calls := by
    intro hr
    have hnew := h.kept.unmade q.calls (le_refl _)
    rcases h.kept.holder _ hr with hh | hh | hh
    · rw [hnew] at hh
      cases hh
    · rw [hnew] at hh
      cases hh
    · exact Nat.lt_irrefl _ (h.kept.lent _ hh).1
  have hpend : q.pending.erase q.calls = q.pending :=
    List.erase_of_not_mem fun hin => Nat.lt_irrefl _ (h.listed.listed _ hin).1
  simp [reject, conclude, finish, setStand, setEntry, release, hrun, hpend]

theorem Steady.reject (h : q.Steady) (a : Answer) :
    ({ q with calls := q.calls + 1 }.reject q.calls a).Steady := by
  rw [reject_eq h a]
  have hu : (({ q with calls := q.calls + 1 }.setEntry q.calls ⟨none, false, .unstarted⟩).entries
      q.calls).stand = .unstarted := by simp [setEntry]
  have hk := (KeptBut.made h.kept none).conclude (i := q.calls) (a := a) (Nat.lt_succ_self _)
    (by rw [hu]; rfl) (s := .unstarted) rfl (fun _ => rfl) (by rw [hu]; exact id)
  rw [if_pos rfl] at hk
  exact ⟨hk, h.listed.untimed.conclude, (h.armed.untimed h.listed none).conclude⟩

theorem Steady.call (h : q.Steady) (supplied : Option Ms) (hm : q.Meets (.call supplied)) :
    (q.call supplied).Steady := by
  have hw : ∀ w ∈ q.waiting, w < q.calls := fun w hw => (h.kept.queued w hw).1
  have he : ∀ e ∈ q.entered, e.1 < q.calls := fun e he => (h.kept.before e he).1
  unfold RealmQueue.call
  simp only
  split
  · exact h.reject .notReady
  · rename_i hready
    simp only [Bool.not_eq_false] at hready
    cases hdl : q.deadlineOf supplied with
    | error e => exact h.reject .badDeadline
    | ok t =>
      cases t with
      | none =>
        obtain ⟨e1, e2, e3, e4, e5⟩ := enqueue_same q.calls
          ({ q with calls := q.calls + 1 }.setEntry q.calls ⟨none, false, .unstarted⟩)
        exact ⟨(KeptBut.made h.kept none).enqueue (Nat.lt_succ_self _) (by simp [setEntry]) hw he,
          h.listed.untimed.congr e1 e2 e3 e4, (h.armed.untimed h.listed none).congr e1 e2 e5⟩
      | some t =>
        obtain ⟨⟨p1, p2, p3, p4, p5⟩, p6⟩ := add_spec h t fun j hj hr => hm j t hj hready hdl hr
        obtain ⟨e1, e2, e3, e4, e5⟩ := enqueue_same q.calls
          (({ q with calls := q.calls + 1 }.setEntry q.calls ⟨some t, false, .unstarted⟩).add
            q.calls t)
        refine ⟨p1.enqueue ?_ ?_ ?_ ?_, p2.congr e1 e2 e3 e4, p6.congr e1 e2 e5⟩
        · rw [p3.calls]
          exact Nat.lt_succ_self _
        · exact p5 q.calls (by simp [setEntry])
        · rw [p3.waiting]
          exact hw
        · rw [p3.entered]
          exact he

end Call

/-! ### The loop -/

section Loop

variable {q : RealmQueue}

/-- A caller that is not on its turn is settled as any is. -/
theorem finish_eq {i : Nat} (hr : q.running ≠ some i) (a : Answer) :
    q.finish i a = q.conclude i a (q.entries i).stand := by
  have hsame : (q.finish i a).setStand i (q.entries i).stand = q.finish i a := by
    have := finish_stand i a q i
    simp [setStand, setEntry, ← this]
  have hrun : (q.finish i a).running = q.running := (finish_entries i a q).2.2.1
  rw [conclude, hsame, release, hrun, if_neg hr]

theorem setStand_same (i : Nat) (s : Stand) (q : RealmQueue) (j : Nat) :
    ((q.setStand i s).entries j).at' = (q.entries j).at' ∧
      ((q.setStand i s).entries j).settled = (q.entries j).settled := by
  by_cases hj : j = i
  · subst hj
    simp [setStand, setEntry]
  · simp [setStand, setEntry, hj]

theorem setStand_stand (i : Nat) (s : Stand) (q : RealmQueue) (j : Nat) :
    ((q.setStand i s).entries j).stand = if j = i then s else (q.entries j).stand := by
  by_cases hj : j = i
  · subst hj
    simp [setStand, setEntry]
  · simp [setStand, setEntry, hj]

/-- The next entry is taken from the queue. -/
theorem KeptBut.shift {i : Nat} {rest : List Nat} (h : q.Kept) (hw : q.waiting = i :: rest)
    (hst : q.stack = .looping) : KeptBut (some i) { q with waiting := rest } := by
  have hsub : ∀ w ∈ rest, w ∈ q.waiting := fun w hw' => hw ▸ List.mem_cons_of_mem i hw'
  have hsorted := h.sorted
  rw [hw, List.pairwise_cons] at hsorted
  refine { h with
    pumped := fun hidle => by simp [hst] at hidle
    sorted := hsorted.2
    queued := fun w hw' => h.queued w (hsub w hw')
    before := fun e he => ⟨(h.before e he).1, fun w hw' => (h.before e he).2 w (hsub w hw')⟩
    owed := fun j hj hx hs => ?_ }
  rcases h.owed j hj (by simp) hs with hj' | hj'
  · rw [hw] at hj'
    rcases List.mem_cons.1 hj' with rfl | hj'
    · exact absurd rfl hx
    · exact Or.inl hj'
  · exact Or.inr hj'

/-- An entry starts. -/
theorem KeptBut.start {i : Nat} (h : q.KeptBut (some i)) (hi : i < q.calls)
    (hu : (q.entries i).stand = .unstarted) (hs : (q.entries i).settled = false)
    (hr : q.running = none) (hst : q.stack = .looping) (hw : ∀ w ∈ q.waiting, i < w)
    (he : ∀ e ∈ q.entered, e.1 < i) (hp : q.isPast i = false) :
    Kept { q.setStand i (.onStack false) with
      running := some i
      stack := .invoking i
      entered := q.entered ++ [(i, q.now)] } := by
  have hnone : ∀ j, (q.entries j).stand.isOn = false := by
    intro j
    by_contra hon
    simp only [Bool.not_eq_false] at hon
    rw [← h.stacked j, hst] at hon
    cases hon
  have hnot : ∀ j, (q.entries j).stand.holds = false := by
    intro j
    by_contra hh
    simp only [Bool.not_eq_false] at hh
    have := h.holds j hh
    simp [hr] at this
  have self : (q.setStand i (.onStack false)).entries i = { q.entries i with stand := .onStack false } := by
    simp [setStand, setEntry]
  have other : ∀ j, j ≠ i → (q.setStand i (.onStack false)).entries j = q.entries j := by
    intro j hj
    simp [setStand, setEntry, hj]
  have hset : ∀ j, ((q.setStand i (.onStack false)).entries j).settled = (q.entries j).settled := by
    intro j
    by_cases hj : j = i
    · subst hj
      rw [self]
    · rw [other j hj]
  refine ⟨fun j hj => ?_, fun j hj => ?_, fun j hj => ?_, fun j => ?_, fun hidle => ?_, h.sorted,
    fun w hw' => ?_, ?_, fun e he' => ?_, fun e he' t ht => ?_, h.once, fun j => ?_, fun j hj => ?_,
    fun j hj => ?_, fun j hj _ hsj => ?_⟩
  · by_cases hji : j = i
    · rw [hji]
    · have hj' : ((q.setStand i (.onStack false)).entries j).stand.holds = true := hj
      rw [other j hji, hnot j] at hj'
      cases hj'
  · obtain rfl : i = j := Option.some.inj hj
    exact Or.inl (congrArg (fun e => e.stand.holds) self)
  · obtain ⟨h1, h2⟩ := h.lent j hj
    have hji : j ≠ i := by
      rintro rfl
      simp [hu, Stand.lent] at h2
    refine ⟨h1, ?_⟩
    have := other j hji
    exact (congrArg (fun e => e.stand.lent) this).trans h2
  · by_cases hji : j = i
    · subst hji
      simpa [Stand.isOn] using congrArg (fun e => e.stand.isOn) self
    · have hoff := (congrArg (fun e => e.stand.isOn) (other j hji)).trans (hnone j)
      simp only [hoff, Bool.false_eq_true, iff_false, Frame.invoking.injEq]
      exact fun hij => hji hij.symm
  · cases hidle
  · obtain ⟨h1, h2⟩ := h.queued w hw'
    have hwi : w ≠ i := by
      have := hw w hw'
      omega
    exact ⟨h1, (congrArg CallEntry.stand (other w hwi)).trans h2⟩
  · have hord : ((q.entered ++ [(i, q.now)]).map Prod.fst).Pairwise (· < ·) := by
      rw [List.map_append, List.pairwise_append]
      refine ⟨h.inOrder, List.pairwise_singleton _ _, fun c hc d hd => ?_⟩
      obtain ⟨e, he', rfl⟩ := List.mem_map.1 hc
      obtain rfl : d = i := by simpa using hd
      exact he e he'
    exact hord
  · rcases List.mem_append.1 he' with he' | he'
    · exact h.before e he'
    · obtain rfl := List.mem_singleton.1 he'
      exact ⟨hi, hw⟩
  · rcases List.mem_append.1 he' with he' | he'
    · have hei : e.1 ≠ i := Nat.ne_of_lt (he e he')
      exact h.prompt e he' t ((congrArg CallEntry.at' (other e.1 hei)).symm.trans ht)
    · obtain rfl := List.mem_singleton.1 he'
      have ht' : (q.entries i).at' = some t := (congrArg CallEntry.at' self).symm.trans ht
      simp only [isPast, ht', decide_eq_false_iff_not, not_le] at hp
      exact hp
  · have hans := h.answered j
    rw [← hset j] at hans
    exact hans
  · have hj' : q.calls ≤ j := hj
    have hji : j ≠ i := by omega
    exact (other j hji).trans (h.unmade j hj)
  · have hj' : ((q.setStand i (.onStack false)).entries j).settled = true := hj
    rw [hset] at hj'
    have hji : j ≠ i := by
      rintro rfl
      simp [hs] at hj'
    exact (congrArg (fun e => e.stand.isRest) (other j hji)).trans (h.spent j hj')
  · by_cases hji : j = i
    · subst hji
      exact Or.inr (congrArg (fun e => e.stand.tells) self)
    · have hs' : (q.entries j).settled = false := (hset j).symm.trans hsj
      rcases h.owed j hj (fun hx => hji (Option.some.inj hx).symm) hs' with hj' | hj'
      · exact Or.inl hj'
      · exact Or.inr ((congrArg (fun e => e.stand.tells) (other j hji)).trans hj')

theorem Steady.loopTurn (h : q.Steady) (hst : q.stack = .looping) : q.loopTurn.Steady := by
  unfold RealmQueue.loopTurn
  split
  · rename_i i rest hr hw
    have hk := KeptBut.shift h.kept hw hst
    have hl : Listed { q with waiting := rest } := h.listed.congr rfl rfl rfl rfl
    have ha : Armed { q with waiting := rest } := h.armed.congr rfl rfl rfl
    have hmem : i ∈ q.waiting := hw ▸ List.mem_cons_self
    obtain ⟨hi, hu⟩ := h.kept.queued i hmem
    have hsorted := h.kept.sorted
    rw [hw, List.pairwise_cons] at hsorted
    have hout : i ∉ rest := fun hin => Nat.lt_irrefl _ (hsorted.1 i hin)
    have hconc : ∀ a, (conclude i a .unstarted { q with waiting := rest }).Steady := by
      intro a
      have := hk.conclude (a := a) (s := .unstarted) hi (by rw [hu]; rfl) rfl
        (fun hin => absurd hin hout) (by rw [hu]; exact id)
      rw [if_pos rfl] at this
      exact ⟨this, hl.conclude, ha.conclude⟩
    simp only
    split
    · rename_i hs
      exact ⟨hk.through hs, hl, ha⟩
    · rename_i hs
      simp only [Bool.not_eq_true] at hs
      split
      · rw [expire_eq, hu]
        exact hconc .late
      · rename_i hp
        simp only [Bool.not_eq_true] at hp
        split
        · rw [finish_eq (by simp [hr]), hu]
          exact hconc .notReady
        · refine ⟨hk.start hi hu hs hr hst (fun w hw' => hsorted.1 w hw')
            (fun e he => (h.kept.before e he).2 i hmem) hp, ?_, ?_⟩
          · exact hl.restand rfl (fun j => (setStand_same i _ _ j).1)
              (fun j => (setStand_same i _ _ j).2) rfl rfl
          · exact ha.restand rfl (fun j => (setStand_same i _ _ j).1) rfl
  · rename_i hne
    refine ⟨{ h.kept with
      stacked := fun j => ?_
      pumped := fun _ hw hr => ?_ }, h.listed.congr rfl rfl rfl rfl, h.armed.congr rfl rfl rfl⟩
    · have := h.kept.stacked j
      rw [hst] at this
      simpa using this
    · cases hwait : q.waiting with
      | nil => exact absurd hwait hw
      | cons i rest => exact absurd hwait (hne i rest hr)

/-- Invocations come to stand elsewhere, with the calls as they were. -/
theorem Kept.restand {q' : RealmQueue} (h : q.Kept)
    (hsame : ∀ j, (q'.entries j).at' = (q.entries j).at' ∧
      (q'.entries j).settled = (q.entries j).settled)
    (hfields : q'.calls = q.calls ∧ q'.waiting = q.waiting ∧ q'.running = q.running ∧
      q'.pumping = q.pumping ∧ q'.answers = q.answers ∧ q'.entered = q.entered)
    (hholds : ∀ j, (q'.entries j).stand.holds = true → (q.entries j).stand.holds = true)
    (hholder : ∀ j, (q.entries j).stand.holds = true ∨ (q.entries j).stand = .ended ∨ j ∈ q.releases →
      (q'.entries j).stand.holds = true ∨ (q'.entries j).stand = .ended ∨ j ∈ q'.releases)
    (hlent : ∀ j ∈ q'.releases, j < q.calls ∧ (q'.entries j).stand.lent = true)
    (hstacked : ∀ j, q'.stack = .invoking j ↔ (q'.entries j).stand.isOn = true)
    (hidle : q'.stack = .idle → q.stack = .idle)
    (hunstarted : ∀ j, (q.entries j).stand = .unstarted → (q'.entries j).stand = .unstarted)
    (hspent : ∀ j, (q.entries j).stand.isRest = true → (q'.entries j).stand.isRest = true)
    (howed : ∀ j, (q.entries j).stand.tells = true → (q'.entries j).stand.tells = true) :
    q'.Kept := by
  obtain ⟨hc, hw, hr, hp, ha, he⟩ := hfields
  refine ⟨fun j hj => ?_, fun j hj => ?_, ?_, hstacked, ?_, ?_, ?_, ?_, ?_, ?_, ?_, ?_, ?_, ?_, ?_⟩
  · rw [hr]
    exact h.holds j (hholds j hj)
  · rw [hr] at hj
    exact hholder j (h.holder j hj)
  · rw [hc]
    exact hlent
  · rw [hw, hr, hp]
    exact fun hi => h.pumped (hidle hi)
  · rw [hw]
    exact h.sorted
  · rw [hw, hc]
    exact fun w hw' => ⟨(h.queued w hw').1, hunstarted w (h.queued w hw').2⟩
  · rw [he]
    exact h.inOrder
  · rw [he, hc, hw]
    exact h.before
  · rw [he]
    exact fun e he' t ht => h.prompt e he' t ((hsame e.1).1.symm.trans ht)
  · rw [ha]
    exact h.once
  · intro j
    rw [ha, (hsame j).2]
    exact h.answered j
  · intro j hj
    rw [hc] at hj
    have hu := h.unmade j hj
    have hst := hunstarted j (by rw [hu])
    have h1 := (hsame j).1
    have h2 := (hsame j).2
    rw [hu] at h1 h2
    cases hq : q'.entries j with
    | mk t b st =>
      rw [hq] at hst h1 h2
      simp only at hst h1 h2
      rw [hst, h1, h2]
  · intro j hj
    rw [(hsame j).2] at hj
    exact hspent j (h.spent j hj)
  · intro j hj hx hs
    rw [hc] at hj
    rw [(hsame j).2] at hs
    rw [hw]
    rcases h.owed j hj hx hs with hj' | hj'
    · exact Or.inl hj'
    · exact Or.inr (howed j hj')

/-- The invocation on the stack leaves it. -/
theorem Kept.leave {i : Nat} {s : Stand} {rel : List Nat} (h : q.Kept) (hst : q.stack = .invoking i)
    (hon : s.isOn = false) (htells : s.tells = true) (hs : s.holds = true ∨ s = .ended ∨ i ∈ rel)
    (hrel : rel = q.releases ∨ rel = q.releases ++ [i] ∧ s.lent = true) :
    Kept { q.setStand i s with
      stack := .looping
      releases := rel } := by
  have hi : (q.entries i).stand.isOn = true := (h.stacked i).1 hst
  have honly : ∀ j, j ≠ i → (q.entries j).stand.isOn = false := by
    intro j hj
    by_contra hon'
    simp only [Bool.not_eq_false] at hon'
    rw [← h.stacked j, hst] at hon'
    exact hj (Frame.invoking.inj hon').symm
  have hcalls : i < q.calls := by
    by_contra hge
    rw [h.unmade i (by omega)] at hi
    cases hi
  have hsub : ∀ j, j ∈ q.releases → j ∈ rel := by
    intro j hj
    rcases hrel with rfl | ⟨rfl, -⟩
    · exact hj
    · exact List.mem_append_left _ hj
  have hholdsi : (q.entries i).stand.holds = true := by
    cases hq : (q.entries i).stand with
    | onStack b => rfl
    | unstarted => rw [hq] at hi; cases hi
    | live d => rw [hq] at hi; cases hi
    | ended => rw [hq] at hi; cases hi
    | done => rw [hq] at hi; cases hi
  have hstand := setStand_stand i s q
  refine h.restand (setStand_same i s q) ⟨rfl, rfl, rfl, rfl, rfl, rfl⟩ (fun j hj => ?_) (fun j hj => ?_)
    (fun j hj => ?_) (fun j => ?_) (fun hidle => by cases hidle) (fun j hj => ?_) (fun j hj => ?_)
    (fun j hj => ?_)
  · by_cases hji : j = i
    · rw [hji]
      exact hholdsi
    · simp only [hstand, if_neg hji] at hj
      exact hj
  · by_cases hji : j = i
    · subst hji
      simp only [hstand]
      simpa using hs
    · simp only [hstand, if_neg hji]
      rcases hj with hj | hj | hj
      · exact Or.inl hj
      · exact Or.inr (Or.inl hj)
      · exact Or.inr (Or.inr (hsub j hj))
  · by_cases hji : j = i
    · subst hji
      simp only [hstand]
      refine ⟨hcalls, ?_⟩
      rcases hrel with rfl | ⟨-, hl⟩
      · have := (Stand.holds_of_lent (h.lent j hj).2).1
        rw [hholdsi] at this
        cases this
      · exact hl
    · simp only [hstand, if_neg hji]
      rcases hrel with rfl | ⟨rfl, -⟩
      · exact h.lent j hj
      · rcases List.mem_append.1 hj with hj | hj
        · exact h.lent j hj
        · exact absurd (List.mem_singleton.1 hj) hji
  · simp only [hstand]
    by_cases hji : j = i
    · simp [hji, hon]
    · simp [hji, honly j hji]
  · by_cases hji : j = i
    · rw [hji] at hj
      rw [hj] at hi
      cases hi
    · simpa only [hstand, if_neg hji] using hj
  · by_cases hji : j = i
    · rw [hji] at hj
      rw [(Stand.holds_of_rest hj).2] at hi
      cases hi
    · simpa only [hstand, if_neg hji] using hj
  · by_cases hji : j = i
    · simpa only [hstand, if_pos hji] using htells
    · simpa only [hstand, if_neg hji] using hj

theorem Steady.returned {i : Nat} (h : q.Steady) (hst : q.stack = .invoking i) (deferred : Bool) :
    (q.returned i deferred).Steady := by
  unfold RealmQueue.returned
  simp only
  refine ⟨?_, h.listed.restand rfl (fun j => (setStand_same i _ _ j).1)
    (fun j => (setStand_same i _ _ j).2) rfl rfl,
    h.armed.restand rfl (fun j => (setStand_same i _ _ j).1) rfl⟩
  split <;> cases deferred
  · exact h.kept.leave hst rfl rfl (Or.inr (Or.inl rfl)) (Or.inl rfl)
  · exact h.kept.leave hst rfl rfl (Or.inr (Or.inl rfl)) (Or.inr ⟨rfl, rfl⟩)
  · exact h.kept.leave hst rfl rfl (Or.inl rfl) (Or.inl rfl)
  · exact h.kept.leave hst rfl rfl (Or.inr (Or.inr (by simp))) (Or.inr ⟨rfl, rfl⟩)

/-- A thrown `invoke` ends as an invocation that was over when it returned. -/
theorem threw_eq {i : Nat} (hr : q.running = some i) : q.threw i =
    { conclude i .threw .done { q.setStand i .ended with stack := .looping } with
      pumping := q.pumping } := by
  by_cases hs : (q.entries i).settled = true
  · simp [threw, conclude, finish, setStand, setEntry, release, pump, hr, hs]
    split <;> simp
  · simp [threw, conclude, finish, setStand, setEntry, release, pump, hr, hs]
    split <;> simp

theorem Steady.threw {i : Nat} (h : q.Steady) (hst : q.stack = .invoking i) : (q.threw i).Steady := by
  have hi : (q.entries i).stand.isOn = true := (h.kept.stacked i).1 hst
  have hr : q.running = some i := by
    refine h.kept.holds i ?_
    cases hq : (q.entries i).stand with
    | onStack b => rfl
    | unstarted => rw [hq] at hi; cases hi
    | live d => rw [hq] at hi; cases hi
    | ended => rw [hq] at hi; cases hi
    | done => rw [hq] at hi; cases hi
  have hleave : Kept { q.setStand i .ended with stack := .looping } :=
    h.kept.leave hst rfl rfl (Or.inr (Or.inl rfl)) (Or.inl rfl)
  have hcalls : i < q.calls := by
    by_contra hge
    rw [h.kept.unmade i (by omega)] at hi
    cases hi
  have hstand : ({ q.setStand i .ended with stack := .looping }.entries i).stand = .ended := by
    simp [setStand, setEntry]
  have hwait : i ∉ q.waiting := by
    intro hin
    rw [(h.kept.queued i hin).2] at hi
    cases hi
  have hl : Listed { q.setStand i .ended with stack := .looping } :=
    h.listed.restand rfl (fun j => (setStand_same i _ _ j).1) (fun j => (setStand_same i _ _ j).2)
      rfl rfl
  have ha : Armed { q.setStand i .ended with stack := .looping } :=
    h.armed.restand rfl (fun j => (setStand_same i _ _ j).1) rfl
  have hk := hleave.conclude (i := i) (a := .threw) (s := .done) hcalls (by rw [hstand]; rfl) rfl
    (fun hin => absurd hin hwait) (fun _ => rfl)
  rw [threw_eq hr]
  refine ⟨{ hk with pumped := fun hidle => ?_ }, hl.conclude.congr rfl rfl rfl rfl,
    ha.conclude.congr rfl rfl rfl⟩
  have := @conclude_left i .threw .done { q.setStand i .ended with stack := .looping }
  rw [show _ = _ from this.stack] at hidle
  cases hidle

end Loop

/-! ### Ends of invocations -/

section Ends

variable {q : RealmQueue}

theorem settleStand_spec (s : Stand) :
    ((settleStand s).holds = true → s.holds = true) ∧
    (s.holds = true ∨ s = .ended → (settleStand s).holds = true ∨ settleStand s = .ended) ∧
    (s.lent = true → (settleStand s).lent = true) ∧ (settleStand s).isOn = s.isOn ∧
    (s = .unstarted → settleStand s = .unstarted) ∧ (s.isRest = true → (settleStand s).isRest = true) ∧
    (s.tells = true → (settleStand s).tells = true) := by
  cases s with
  | onStack b => cases b <;> decide
  | live d => cases d <;> decide
  | unstarted => decide
  | ended => decide
  | done => decide

/-- Any of the invocations are answered. -/
theorem Kept.answer {q' : RealmQueue} (h : q.Kept)
    (hsame : ∀ j, (q'.entries j).at' = (q.entries j).at' ∧
      (q'.entries j).settled = (q.entries j).settled)
    (hfields : q'.calls = q.calls ∧ q'.waiting = q.waiting ∧ q'.running = q.running ∧
      q'.pumping = q.pumping ∧ q'.answers = q.answers ∧ q'.entered = q.entered)
    (hstack : q'.stack = q.stack) (hrel : q'.releases = q.releases)
    (hstand : ∀ j, (q'.entries j).stand = (q.entries j).stand ∨
      (q'.entries j).stand = settleStand (q.entries j).stand) : q'.Kept := by
  have spec := fun j => settleStand_spec (q.entries j).stand
  refine h.restand hsame hfields (fun j hj => ?_) (fun j hj => ?_) (fun j hj => ?_) (fun j => ?_)
    (fun hidle => hstack ▸ hidle) (fun j hj => ?_) (fun j hj => ?_) (fun j hj => ?_)
  · rcases hstand j with hs | hs
    · rwa [hs] at hj
    · rw [hs] at hj
      exact (spec j).1 hj
  · rw [hrel]
    rcases hstand j with hs | hs
    · rwa [hs]
    · rw [hs]
      rcases hj with hj | hj | hj
      · exact ((spec j).2.1 (Or.inl hj)).imp_right Or.inl
      · exact ((spec j).2.1 (Or.inr hj)).imp_right Or.inl
      · exact Or.inr (Or.inr hj)
  · rw [hrel] at hj
    obtain ⟨h1, h2⟩ := h.lent j hj
    rcases hstand j with hs | hs
    · exact ⟨h1, hs ▸ h2⟩
    · exact ⟨h1, hs ▸ (spec j).2.2.1 h2⟩
  · rw [hstack, h.stacked j]
    rcases hstand j with hs | hs
    · rw [hs]
    · rw [hs, (spec j).2.2.2.1]
  · rcases hstand j with hs | hs
    · rwa [hs]
    · rw [hs]
      exact (spec j).2.2.2.2.1 hj
  · rcases hstand j with hs | hs
    · rwa [hs]
    · rw [hs]
      exact (spec j).2.2.2.2.2.1 hj
  · rcases hstand j with hs | hs
    · rwa [hs]
    · rw [hs]
      exact (spec j).2.2.2.2.2.2 hj

theorem Steady.result (h : q.Steady) (i : Nat) :
    (q.setStand i (settleStand (q.entries i).stand)).Steady := by
  refine ⟨h.kept.answer (setStand_same i _ q) ⟨rfl, rfl, rfl, rfl, rfl, rfl⟩ rfl rfl (fun j => ?_),
    h.listed.restand rfl (fun j => (setStand_same i _ _ j).1) (fun j => (setStand_same i _ _ j).2)
      rfl rfl, h.armed.restand rfl (fun j => (setStand_same i _ _ j).1) rfl⟩
  rw [setStand_stand]
  by_cases hj : j = i
  · subst hj
    exact Or.inr (if_pos rfl)
  · exact Or.inl (if_neg hj)

theorem Steady.dispose (h : q.Steady) : q.dispose.Steady := by
  refine ⟨h.kept.answer (fun _ => ⟨rfl, rfl⟩) ⟨rfl, rfl, rfl, rfl, rfl, rfl⟩ rfl rfl
    (fun _ => Or.inr rfl), ?_, fun d hd => ?_⟩
  · exact ⟨List.nodup_nil, fun d hd => absurd hd List.not_mem_nil, fun hr => by cases hr⟩
  · exact absurd hd List.not_mem_nil

theorem Steady.told {i : Nat} (h : q.Steady) (he : (q.entries i).stand = .ended) (ok : Bool) :
    (q.told i ok).Steady := by
  have hi : i < q.calls := by
    by_contra hge
    rw [h.kept.unmade i (by omega)] at he
    cases he
  have hw : i ∉ q.waiting := by
    intro hin
    rw [(h.kept.queued i hin).2] at he
    cases he
  have hk := h.kept.conclude (i := i) (a := if ok then .value else .failed) (s := .done) hi
    (by rw [he]; rfl) rfl (fun hin => absurd hin hw) (fun _ => rfl)
  rw [if_neg (by simp)] at hk
  exact ⟨hk, h.listed.conclude, h.armed.conclude⟩

/-- The microtask of a deferred invocation gives the realm back, if it is still held. -/
theorem Steady.released {i : Nat} (h : q.Steady) (hi : i ∈ q.releases) :
    ({ q with releases := q.releases.erase i }.release i).Steady := by
  have hlent : ∀ j ∈ q.releases.erase i, j < q.calls ∧ (q.entries j).stand.lent = true :=
    fun j hj => h.kept.lent j (List.mem_of_mem_erase hj)
  unfold release
  split
  · rename_i hr
    have hr' : q.running = some i := hr
    have hl := pump_left { q with releases := q.releases.erase i, running := none }
    obtain ⟨p1, p2, p3, p4, p5⟩ :=
      pump_entries { q with releases := q.releases.erase i, running := none }
    refine ⟨⟨fun j hj => ?_, ?_, ?_, ?_, fun hidle hw hrun => ?_, ?_, ?_, ?_, ?_, ?_, ?_, ?_, ?_, ?_, ?_⟩,
      h.listed.congr p4 p1 hl.calls hl.ready, h.armed.congr p4 p1 p5⟩
    · -- the holder was lent the realm only
      rw [p1] at hj
      have hji := h.kept.holds j hj
      rw [hr'] at hji
      obtain rfl := Option.some.inj hji
      rw [(Stand.holds_of_lent (h.kept.lent i hi).2).1] at hj
      cases hj
    · rw [p3]
      exact fun j hj => by cases hj
    · rw [hl.releases, hl.calls, p1]; exact hlent
    · rw [hl.stack, p1]; exact h.kept.stacked
    · rw [hl.waiting] at hw
      unfold pump
      split
      · rename_i hp
        simpa [show q.waiting ≠ [] from hw] using hp
      · rfl
    · rw [hl.waiting]; exact h.kept.sorted
    · rw [hl.waiting, hl.calls, p1]; exact h.kept.queued
    · rw [hl.entered]; exact h.kept.inOrder
    · rw [hl.entered, hl.calls, hl.waiting]; exact h.kept.before
    · rw [hl.entered, p1]; exact h.kept.prompt
    · rw [p2]; exact h.kept.once
    · rw [p2, p1]; exact h.kept.answered
    · rw [hl.calls, p1]; exact h.kept.unmade
    · rw [p1]; exact h.kept.spent
    · rw [hl.calls, hl.waiting, p1]; exact h.kept.owed
  · rename_i hr
    refine ⟨{ h.kept with
      lent := hlent
      holder := fun j hj => ?_ }, h.listed.congr rfl rfl rfl rfl, h.armed.congr rfl rfl rfl⟩
    have hne : j ≠ i := by
      rintro rfl
      exact hr hj
    rcases h.kept.holder j hj with hh | hh | hh
    · exact Or.inl hh
    · exact Or.inr (Or.inl hh)
    · exact Or.inr (Or.inr ((List.mem_erase_of_ne hne).2 hh))

theorem Steady.timer (h : q.Steady) (hst : q.stack = .idle) : q.arm.Steady := by
  obtain ⟨⟨p1, p2, -, -, -⟩, p6⟩ := arm_spec h.kept h.listed fun d _ _ => by
    by_contra hon
    simp only [Bool.not_eq_false] at hon
    rw [← h.kept.stacked d, hst] at hon
    cases hon
  exact ⟨p1, p2, p6⟩

end Ends

/-! ### Runs -/

theorem Steady.step {q : RealmQueue} (h : q.Steady) (e : Event) (hm : q.Meets e) :
    (q.step e).Steady := by
  cases e with
  | call supplied =>
    simp only [RealmQueue.step]
    split
    · exact h
    · exact h.call supplied hm
  | elapse ms =>
    exact ⟨{ h.kept with }, h.listed.congr rfl rfl rfl rfl, h.armed.congr rfl rfl rfl⟩
  | timer =>
    simp only [RealmQueue.step]
    split
    · rename_i hc
      exact h.timer hc.1
    · exact h
  | enterNext =>
    simp only [RealmQueue.step]
    split
    · rename_i hc
      refine ⟨{ h.kept with
        stacked := fun j => ?_
        pumped := fun hidle => by cases hidle }, h.listed.congr rfl rfl rfl rfl,
        h.armed.congr rfl rfl rfl⟩
      have := h.kept.stacked j
      rw [hc.1] at this
      simpa using this
    · exact h
  | loopTurn =>
    simp only [RealmQueue.step]
    split
    · rename_i hc
      exact h.loopTurn hc
    · exact h
  | returned deferred =>
    simp only [RealmQueue.step]
    split
    · rename_i i hst
      exact h.returned hst deferred
    · exact h
  | threw =>
    simp only [RealmQueue.step]
    split
    · rename_i i hst
      exact h.threw hst
    · exact h
  | result i =>
    simp only [RealmQueue.step]
    split
    · exact h
    · exact h.result i
  | told i ok =>
    simp only [RealmQueue.step]
    split
    · rename_i hc
      exact h.told hc.2 ok
    · exact h
  | released i =>
    simp only [RealmQueue.step]
    split
    · rename_i hc
      exact h.released hc.2
    · exact h
  | dispose =>
    simp only [RealmQueue.step]
    split
    · exact h
    · exact h.dispose

theorem steady_create (d : Ms) : (create d).Steady :=
  ⟨kept_create d, ⟨List.nodup_nil, by simp [create], by simp [create]⟩, by simp [Armed, create]⟩

/-- Every step of a run meets the condition. -/
def MeetsAll (q : RealmQueue) : List Event → Prop
  | [] => True
  | e :: es => q.Meets e ∧ MeetsAll (q.step e) es

theorem Steady.run {q : RealmQueue} (h : q.Steady) (es : List Event) (hm : q.MeetsAll es) :
    (q.run es).Steady := by
  induction es generalizing q with
  | nil => exact h
  | cons e es ih => exact ih (h.step e hm.1) hm.2

/-- Entry to the realm is serialized. -/
structure Serial (q : RealmQueue) : Prop where
  /-- One invocation has the realm at a time. -/
  one : ∀ i j, (q.entries i).stand.holds = true → (q.entries j).stand.holds = true → i = j
  inOrder : (q.entered.map Prod.fst).Pairwise (· < ·)
  once : (q.answers.map Prod.fst).Nodup
  /-- Nobody is forgotten: a caller not answered waits its turn or is told of its invocation's
  end, and with a deadline its timer is on. -/
  owed : ∀ i, i < q.calls → i ∉ q.answers.map Prod.fst →
    i ∈ q.waiting ∨ (q.entries i).stand.tells = true
  timed : q.ready = true → ∀ i, i < q.calls → i ∉ q.answers.map Prod.fst →
    ∀ t, (q.entries i).at' = some t → ∃ timer, q.timerAt = some timer ∧ timer ≤ t + 1
  /-- Nothing is entered past its deadline. -/
  prompt : ∀ e ∈ q.entered, ∀ t, (q.entries e.1).at' = some t → e.2 < t
  /-- The invocation of a caller that is answered, by its deadline or otherwise, is over. -/
  cancelled : ∀ i ∈ q.answers.map Prod.fst, (q.entries i).stand.isLive = false
  /-- The realm is given back, and then to whoever waits. -/
  returned : ∀ i, q.running = some i →
    (q.entries i).stand.holds = true ∨ (q.entries i).stand = .ended ∨ i ∈ q.releases
  pumped : q.stack = .idle → q.waiting ≠ [] → q.running = none → q.pumping = true

theorem Steady.serial {q : RealmQueue} (h : q.Steady) : q.Serial where
  one := by
    intro i j hi hj
    have := (h.kept.holds i hi).symm.trans (h.kept.holds j hj)
    exact Option.some.inj this
  inOrder := h.kept.inOrder
  once := h.kept.once
  owed := by
    intro i hi hans
    rw [h.kept.answered, Bool.not_eq_true] at hans
    exact h.kept.owed i hi (by simp) hans
  timed := by
    intro hr i hi hans t ht
    rw [h.kept.answered, Bool.not_eq_true] at hans
    exact h.armed i (h.listed.all hr i hi hans t ht) t ht
  prompt := h.kept.prompt
  cancelled := by
    intro i hi
    have hrest := h.kept.spent i ((h.kept.answered i).1 hi)
    cases hs : (q.entries i).stand with
    | onStack b => rw [hs] at hrest; cases hrest
    | live d => rw [hs] at hrest; cases hrest
    | unstarted => rfl
    | ended => rfl
    | done => rfl
  returned := h.kept.holder
  pumped := h.kept.pumped

/-- In a run in which no call made inside an invocation finds that invocation due, entry to
the realm is serialized. -/
theorem run_serial (d : Ms) (es : List Event) (hm : (create d).MeetsAll es) :
    ((create d).run es).Serial :=
  ((steady_create d).run es hm).serial

/-- An invocation calls back in while its own deadline is far. -/
def nestedRun : List Event :=
  [.call (some (.fin 5)), .enterNext, .loopTurn, .call none, .returned true]

theorem nestedRun_meets : (create (.fin 1000)).MeetsAll nestedRun := by
  refine ⟨fun j t hst => (by cases hst), trivial, trivial, fun j t hst _ _ _ => ?_, trivial, trivial⟩
  have hon : ((((create (.fin 1000)).step (.call (some (.fin 5)))).step .enterNext).step
      .loopTurn).stack = .invoking 0 := by decide +kernel
  obtain rfl : 0 = j := Frame.invoking.inj (hon.symm.trans hst)
  decide +kernel

theorem nestedRun_serial :
    (create (.fin 1000)).MeetsAll nestedRun ∧ ((create (.fin 1000)).run nestedRun).Serial :=
  ⟨nestedRun_meets, run_serial (.fin 1000) nestedRun nestedRun_meets⟩

/-- The second call is entered with 99.5 ms to its deadline, under a timer for 100 ms, and
runs for 98.7; the fourth, made inside it, has 0.1 ms and moves the timer. -/
def dueRun : List Event :=
  [.call (some (.fin 100)), .call (some (.fin 99.5)), .enterNext, .loopTurn, .returned false, .loopTurn,
    .result 0, .told 0 true, .call none, .enterNext, .loopTurn, .elapse 98.7, .call (some (.fin 0.1)),
    .returned false, .loopTurn]

/-- The second call is answered late and goes on, and the third is entered beside it. -/
theorem dueRun_unserial : ¬ ∀ d es, ((create d).run es).Serial := by
  intro h
  have hs := h (.fin 1000) dueRun
  have hlive : (((create (.fin 1000)).run dueRun).entries 1).stand = .live false := by decide +kernel
  have hon : (((create (.fin 1000)).run dueRun).entries 2).stand = .onStack false := by decide +kernel
  have := hs.one 1 2 (by rw [hlive]; rfl) (by rw [hon]; rfl)
  cases this

end RealmQueue

end SeedTransport
