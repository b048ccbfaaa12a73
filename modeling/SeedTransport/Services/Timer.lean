import SeedTransport.Host.RealmQueue

set_option autoImplicit false

namespace SeedTransport

/-! The wake of a realm (`services/timer.ts`): one armed at a time, one in flight, and each
handed over only while the realm has credit on the node's clock. -/

/-- The armed wake; `timer` is its timeout, unless that has fired. -/
structure Wake where
  id : Nat
  timer : Option Nat
  deriving DecidableEq

/-- A timeout of the platform's, which is an `attempt` of a wake. -/
structure Timeout where
  id : Nat
  wake : Nat
  due : ℚ
  deriving DecidableEq

/-- A wake as it was given to the realm: when, what had been charged by then, what of it the
account did not take, and the credit. -/
structure Handover where
  wake : Nat
  at' : ℚ
  charged : ℚ
  forgiven : ℚ
  credit : Option ℚ
  deriving DecidableEq

/-- `none` is `Infinity` in the budget and the credit. `inFire` is the wake whose `fire` is on
the stack, `answers` the wakes whose `fire` gave a promise that has not settled. Wakes and
timeouts are named in the order they are made. The last four are for an observer. -/
structure RealmTimers where
  budgetMs : Option ℚ
  clockDivisor : ℚ
  now : ℚ
  live : Option Wake
  firing : Bool
  disposed : Bool
  credit : Option ℚ
  creditAt : ℚ
  arms : Nat
  timeouts : List Timeout
  nextTimeout : Nat
  inFire : Option Nat
  answers : List Nat
  created : ℚ
  handovers : List Handover
  charged : ℚ
  forgiven : ℚ

namespace RealmTimers

open RealmQueue (MAX_TIMEOUT)

def create (budgetMs : Option ℚ) (clockDivisor now : ℚ) : RealmTimers where
  budgetMs := budgetMs
  clockDivisor := clockDivisor
  now := now
  live := none
  firing := false
  disposed := false
  credit := budgetMs
  creditAt := now
  arms := 0
  timeouts := []
  nextTimeout := 0
  inFire := none
  answers := []
  created := now
  handovers := []
  charged := 0
  forgiven := 0

/-- A budget that is not positive turns the pace off. -/
def paced (h : RealmTimers) : Bool :=
  match h.budgetMs with
  | none => true
  | some b => decide (0 < b)

/-- What a finite budget makes of the credit. -/
def onCredit (h : RealmTimers) (f : ℚ → ℚ → ℚ) : RealmTimers :=
  match h.budgetMs, h.credit with
  | some b, some c => { h with credit := some (f b c) }
  | _, _ => h

def accrue (h : RealmTimers) : RealmTimers :=
  let elapsed := h.now - h.creditAt
  let h := { h with creditAt := h.now }
  if 0 < elapsed then h.onCredit fun b c => max (-b) (min b (c + elapsed / h.clockDivisor)) else h

/-- What a charge would take the account below its floor by. -/
def overdraft (h : RealmTimers) (ms : ℚ) : ℚ :=
  match h.budgetMs, h.credit with
  | some b, some c => max 0 (-b - (c - ms))
  | _, _ => 0

/-- `charge` of a causal clock. -/
def charge (h : RealmTimers) (ms : ℚ) : RealmTimers :=
  if 0 < ms then
    let h := h.accrue
    { h.onCredit fun b c => max (-b) (c - ms) with
      charged := h.charged + ms
      forgiven := h.forgiven + h.overdraft ms }
  else h

def clear (h : RealmTimers) : RealmTimers :=
  match h.live with
  | some ⟨_, some t⟩ => { h with live := none, timeouts := h.timeouts.filter (·.id ≠ t) }
  | _ => { h with live := none }

def setTimeout (h : RealmTimers) (wake : Nat) (ms : ℚ) : RealmTimers :=
  { h with
    live := some ⟨wake, some h.nextTimeout⟩
    timeouts := h.timeouts ++ [⟨h.nextTimeout, wake, h.now + ms⟩]
    nextTimeout := h.nextTimeout + 1 }

/-- Until the credit is 1 again. -/
def slip (h : RealmTimers) (c : ℚ) : ℚ := min MAX_TIMEOUT ⌈(1 - c) * h.clockDivisor⌉

/-- Give the wake to the realm: `fire` is on the stack from here. -/
def hand (h : RealmTimers) (wake : Nat) : RealmTimers :=
  { h with
    live := none
    firing := true
    inFire := some wake
    handovers := h.handovers ++ [⟨wake, h.now, h.charged, h.forgiven, h.credit⟩] }

/-- The credit of an account that is spent. -/
def spent (h : RealmTimers) : Option ℚ :=
  if h.paced then h.credit.filter (· ≤ 0) else none

/-- Fire the wake, unless a newer arm replaced it, one is in flight, or the pace holds it
back. -/
def attempt (h : RealmTimers) (wake : Nat) : RealmTimers :=
  if h.live.map (·.id) ≠ some wake then h
  else
    let h := { h with live := some ⟨wake, none⟩ }
    if h.firing then h
    else
      let h := h.accrue
      match h.spent with
      | some c => h.setTimeout wake (h.slip c)
      | none => h.hand wake

def release (h : RealmTimers) : RealmTimers :=
  let h := { h with firing := false }
  match h.live with
  | some ⟨wake, none⟩ => h.attempt wake
  | _ => h

/-- A delay a wake may have: an integer in 0..2147483647. -/
def delay : Ms → Option ℚ
  | .fin q => if q.den = 1 ∧ 0 ≤ q ∧ q ≤ MAX_TIMEOUT then some q else none
  | _ => none

def arm (h : RealmTimers) (ms : Ms) : Except String Unit × RealmTimers :=
  if h.disposed then (.error "guest: wake disposed", h)
  else
    match delay ms with
    | none => (.error "guest: wake requires a delay in 0..2147483647", h)
    | some d =>
      let h := h.clear
      (.ok (), { h with arms := h.arms + 1 }.setTimeout h.arms d)

def clearAll (h : RealmTimers) : RealmTimers := { h with disposed := true }.clear

/-- `fire` returns; a wake it gave no promise for is over. -/
def returned (h : RealmTimers) (wake : Nat) (promised : Bool) : RealmTimers :=
  let h := { h with inFire := none }
  if promised then { h with answers := wake :: h.answers } else h.release

/-- The promise of a wake resolves or is rejected. -/
def settled (h : RealmTimers) (wake : Nat) : RealmTimers :=
  { h with answers := h.answers.erase wake }.release

/-- The wake's callers and its clocks may act while `fire` is on the stack, timeouts and promises
only on a turn of their own. A clock that charges is one a wake was handed over with. -/
inductive Event where
  | arm (ms : Ms)
  | clear
  | clearAll
  | charge (wake : Nat) (ms : ℚ)
  | elapse (ms : ℚ)
  | timeout (id : Nat)
  | returned (promised : Bool)
  | threw
  | settled (wake : Nat)

def step (h : RealmTimers) : Event → RealmTimers
  | .arm ms => (h.arm ms).2
  | .clear => h.clear
  | .clearAll => h.clearAll
  | .charge wake ms => if wake ∈ h.handovers.map (·.wake) then h.charge ms else h
  | .elapse ms => { h with now := h.now + max ms 0 }
  | .timeout id =>
    match h.inFire, h.timeouts.find? (·.id = id) with
    | none, some t => { h with timeouts := h.timeouts.erase t }.attempt t.wake
    | _, _ => h
  | .returned promised =>
    match h.inFire with
    | some wake => h.returned wake promised
    | none => h
  | .threw =>
    match h.inFire with
    | some wake => h.returned wake false
    | none => h
  | .settled wake => if h.inFire = none ∧ wake ∈ h.answers then h.settled wake else h

def run (h : RealmTimers) (es : List Event) : RealmTimers := es.foldl step h

/-! ### What holds of the wakes -/

/-- The wakes that were handed over and are not over. -/
def inFlight (h : RealmTimers) : List Nat := h.inFire.toList ++ h.answers

/-- A wake handed over had credit. -/
def Funded (w : Handover) : Prop := ∀ c, w.credit = some c → 0 < c

/-- What holds even between a timeout and its `attempt`. -/
structure Tidy (h : RealmTimers) : Prop where
  flight : h.inFlight.length = if h.firing then 1 else 0
  gone : h.disposed = true → h.live = none
  named : ∀ e, h.live = some e → e.id < h.arms ∧ ∀ w ∈ h.handovers, w.wake < e.id
  below : ∀ w ∈ h.handovers, w.wake < h.arms
  rising : (h.handovers.map (·.wake)).Pairwise (· < ·)
  funded : h.paced = true → ∀ w ∈ h.handovers, Funded w

/-- Where the armed wake is: nowhere else than in the one timeout there is, or behind the one in
flight. -/
def Placed (h : RealmTimers) : Prop :=
  match h.live with
  | none => h.timeouts = []
  | some ⟨_, none⟩ => h.timeouts = [] ∧ h.firing = true
  | some ⟨wake, some t⟩ => ∃ due, h.timeouts = [⟨t, wake, due⟩]

structure Waked (h : RealmTimers) : Prop extends Tidy h where
  placed : h.Placed

variable {h : RealmTimers}

/-- The account is all that accrual changes. -/
theorem accrue_eq (h : RealmTimers) :
    ∃ credit, h.accrue = { h with credit := credit, creditAt := h.now } := by
  unfold accrue onCredit
  simp only
  split
  · split
    · exact ⟨_, rfl⟩
    · exact ⟨h.credit, rfl⟩
  · exact ⟨h.credit, rfl⟩

theorem charge_eq (h : RealmTimers) (ms : ℚ) : ∃ credit creditAt charged forgiven,
    h.charge ms = { h with
      credit := credit, creditAt := creditAt, charged := charged, forgiven := forgiven } := by
  obtain ⟨credit, he⟩ := accrue_eq h
  unfold charge
  split
  · rw [he]
    unfold onCredit
    simp only
    split <;> exact ⟨_, _, _, _, rfl⟩
  · exact ⟨h.credit, h.creditAt, h.charged, h.forgiven, rfl⟩

theorem Placed.clear (hp : h.Placed) : h.clear.live = none ∧ h.clear.timeouts = [] := by
  unfold Placed at hp
  unfold RealmTimers.clear
  split at hp
  · simp [*]
  · simp [*]
  · obtain ⟨due, hd⟩ := hp
    simp [*]

/-- Clearing changes the armed wake and its timeout. -/
theorem clear_eq (h : RealmTimers) : ∃ timeouts, h.clear = { h with live := none, timeouts := timeouts } := by
  unfold clear
  split <;> exact ⟨_, rfl⟩

theorem Waked.clear (q : h.Waked) : h.clear.Waked := by
  obtain ⟨hlive, htimeouts⟩ := q.placed.clear
  obtain ⟨timeouts, he⟩ := clear_eq h
  rw [he] at htimeouts ⊢
  exact { q with
    gone := fun _ => rfl
    named := fun e hl => by cases hl
    placed := htimeouts }

/-- With the wake in no timeout, `attempt` hands it over, or puts it in one, or leaves it behind
the one in flight. -/
theorem Tidy.attempt (q : h.Tidy) {wake : Nat} {timer : Option Nat}
    (hl : h.live = some ⟨wake, timer⟩) (ht : h.timeouts = []) : (h.attempt wake).Waked := by
  have hgone : h.disposed = false := by
    cases hd : h.disposed
    · rfl
    · have := q.gone hd
      rw [hl] at this
      cases this
  obtain ⟨hid, hbelow⟩ := q.named _ hl
  unfold RealmTimers.attempt
  simp only [hl, Option.map_some, ne_eq, not_true_eq_false, if_false]
  split
  · rename_i hf
    exact { q with
      gone := fun hd => by rw [hgone] at hd; cases hd
      named := fun e he => by
        cases he
        exact ⟨hid, hbelow⟩
      placed := ⟨ht, hf⟩ }
  · rename_i hf
    obtain ⟨credit, he⟩ := accrue_eq { h with live := some ⟨wake, none⟩ }
    rw [he]
    split
    · exact { q with
        gone := fun hd => by rw [hgone] at hd; cases hd
        named := fun e he => by
          cases he
          exact ⟨hid, hbelow⟩
        placed := by simp [Placed, setTimeout, ht] }
    · rename_i hspent
      have hflight := q.flight
      rw [if_neg hf] at hflight
      exact { q with
        flight := by
          have hnil := List.length_eq_zero_iff.1 hflight
          simp only [inFlight, List.append_eq_nil_iff] at hnil
          simp [inFlight, hand, hnil.2]
        gone := fun _ => rfl
        named := fun e he => by cases he
        below := fun w hw => by
          rcases List.mem_append.1 hw with hw | hw
          · exact q.below w hw
          · rw [List.mem_singleton.1 hw]
            exact hid
        rising := by
          simp only [hand, List.map_append, List.map_cons, List.map_nil]
          refine List.pairwise_append.2 ⟨q.rising, List.pairwise_singleton _ _, fun a ha b hb => ?_⟩
          obtain ⟨w, hw, rfl⟩ := List.mem_map.1 ha
          rw [List.mem_singleton.1 hb]
          exact hbelow w hw
        funded := fun hpaced w hw => by
          rcases List.mem_append.1 hw with hw | hw
          · exact q.funded hpaced w hw
          · rw [List.mem_singleton.1 hw]
            intro c hc
            have hpaced' : ({ h with live := some ⟨wake, none⟩, credit := credit, creditAt := h.now } :
                RealmTimers).paced = true := hpaced
            simp only [spent, hpaced', if_true] at hspent
            simp only at hc
            subst hc
            simpa [Option.filter] using hspent
        placed := ht }


/-- With nothing in flight, what waited for it is attempted. -/
theorem Tidy.release (q : ({ h with firing := false } : RealmTimers).Tidy) (hp : h.Placed) :
    h.release.Waked := by
  unfold RealmTimers.release
  simp only
  split
  · rename_i wake hl
    simp only [Placed, hl] at hp
    exact q.attempt hl hp.1
  · rename_i hno
    exact { q with
      placed := by
        unfold Placed at hp ⊢
        simp only
        split at hp
        · exact hp
        · rename_i wake hl
          exact absurd hl (hno wake)
        · exact hp }

theorem Waked.returned (q : h.Waked) {wake : Nat} (hw : h.inFire = some wake) (promised : Bool) :
    (h.returned wake promised).Waked := by
  have hflight := q.flight
  simp only [inFlight, hw, Option.toList_some, List.singleton_append, List.length_cons] at hflight
  unfold RealmTimers.returned
  simp only
  split
  · exact { q with flight := by simpa [inFlight] using hflight }
  · apply Tidy.release
    · exact { q with
        flight := by
          show h.answers.length = 0
          split at hflight <;> omega }
    · exact q.placed

theorem Waked.settled (q : h.Waked) {wake : Nat} (hf : h.inFire = none) (hw : wake ∈ h.answers) :
    (h.settled wake).Waked := by
  have hflight := q.flight
  simp only [inFlight, hf, Option.toList_none, List.nil_append] at hflight
  have hlen := List.length_erase_of_mem hw
  have hpos := List.length_pos_of_mem hw
  apply Tidy.release
  · exact { q with
      flight := by
        simp only [inFlight, hf, Option.toList_none, List.nil_append]
        show (h.answers.erase wake).length = 0
        split at hflight <;> omega }
  · exact q.placed

theorem Waked.arm (q : h.Waked) (ms : Ms) : (h.arm ms).2.Waked := by
  unfold RealmTimers.arm
  split
  · exact q
  rename_i hopen
  split
  · exact q
  rename_i d hd
  obtain ⟨hlive, htimeouts⟩ := q.placed.clear
  obtain ⟨timeouts, he⟩ := clear_eq h
  simp only [he] at htimeouts ⊢
  exact { q with
    gone := fun hgone => absurd hgone hopen
    named := fun e hl => by
      cases hl
      exact ⟨Nat.lt_succ_self _, q.below⟩
    below := fun w hw => Nat.lt_succ_of_lt (q.below w hw)
    placed := by simp [Placed, setTimeout, htimeouts] }

theorem Waked.clearAll (q : h.Waked) : h.clearAll.Waked := by
  have hp : ({ h with disposed := true } : RealmTimers).Placed := q.placed
  obtain ⟨hlive, htimeouts⟩ := hp.clear
  obtain ⟨timeouts, he⟩ := clear_eq { h with disposed := true }
  unfold RealmTimers.clearAll
  rw [he] at htimeouts ⊢
  exact { q with
    gone := fun _ => rfl
    named := fun e hl => by cases hl
    placed := htimeouts }

/-- The timeout that fires is the armed wake's. -/
theorem Waked.timeout (q : h.Waked) {id : Nat} {t : Timeout}
    (ht : h.timeouts.find? (·.id = id) = some t) :
    h.live = some ⟨t.wake, some t.id⟩ ∧ h.timeouts = [t] := by
  have hmem := List.mem_of_find?_eq_some ht
  have hp := q.placed
  unfold Placed at hp
  split at hp
  · rw [hp] at hmem
    cases hmem
  · rw [hp.1] at hmem
    cases hmem
  · rename_i hl
    obtain ⟨due, hd⟩ := hp
    rw [hd, List.mem_singleton] at hmem
    subst hmem
    exact ⟨hl, hd⟩

theorem Waked.step (q : h.Waked) (e : Event) : (h.step e).Waked := by
  cases e with
  | arm ms => exact q.arm ms
  | clear => exact q.clear
  | clearAll => exact q.clearAll
  | charge wake ms =>
    simp only [RealmTimers.step]
    split
    · obtain ⟨credit, creditAt, charged, forgiven, he⟩ := charge_eq h ms
      rw [he]
      exact { q with }
    · exact q
  | elapse ms => exact { q with }
  | timeout id =>
    simp only [RealmTimers.step]
    split
    · rename_i t hf ht
      obtain ⟨hl, hts⟩ := q.timeout ht
      have q' : ({ h with timeouts := h.timeouts.erase t } : RealmTimers).Tidy := { q with }
      exact q'.attempt hl (by simp [hts])
    · exact q
  | returned promised =>
    simp only [RealmTimers.step]
    split
    · rename_i wake hw
      exact q.returned hw promised
    · exact q
  | threw =>
    simp only [RealmTimers.step]
    split
    · rename_i wake hw
      exact q.returned hw false
    · exact q
  | settled wake =>
    simp only [RealmTimers.step]
    split
    · rename_i hw
      exact q.settled hw.1 hw.2
    · exact q

theorem create_waked (budgetMs : Option ℚ) (clockDivisor now : ℚ) :
    (create budgetMs clockDivisor now).Waked := by
  constructor
  · constructor <;> simp [create, inFlight]
  · rfl

theorem Waked.run (es : List Event) : ∀ {h : RealmTimers}, h.Waked → (h.run es).Waked := by
  induction es with
  | nil => exact fun q => q
  | cons e es ih => exact fun q => ih (q.step e)

/-! ### What a run does with a wake -/

/-- The wake that is armed. -/
def armed (h : RealmTimers) : Option Nat := h.live.map (·.id)

/-- An event leaves the armed wake as it is, or hands it over. -/
structure Onward (h h' : RealmTimers) : Prop where
  arms : h'.arms = h.arms
  disposed : h'.disposed = h.disposed
  moved : (h'.handovers = h.handovers ∧ h'.armed = h.armed) ∨
    ∃ w, h.armed = some w.wake ∧ h'.handovers = h.handovers ++ [w] ∧ h'.armed = none

theorem Onward.refl (h : RealmTimers) : Onward h h := ⟨rfl, rfl, .inl ⟨rfl, rfl⟩⟩

theorem attempt_onward (h : RealmTimers) (wake : Nat) : Onward h (h.attempt wake) := by
  unfold attempt
  split
  · exact Onward.refl h
  · rename_i hl
    have hl : h.armed = some wake := by
      rw [ne_eq, not_not] at hl
      exact hl
    simp only
    split
    · exact ⟨rfl, rfl, .inl ⟨rfl, by rw [hl]; rfl⟩⟩
    · obtain ⟨credit, he⟩ := accrue_eq { h with live := some ⟨wake, none⟩ }
      rw [he]
      split
      · exact ⟨rfl, rfl, .inl ⟨rfl, by rw [hl]; rfl⟩⟩
      · exact ⟨rfl, rfl, .inr ⟨_, hl, rfl, rfl⟩⟩

theorem release_onward (h : RealmTimers) : Onward h h.release := by
  unfold release
  simp only
  split
  · have o := attempt_onward { h with firing := false } ‹Nat›
    exact ⟨o.arms, o.disposed, o.moved⟩
  · exact ⟨rfl, rfl, .inl ⟨rfl, rfl⟩⟩

theorem returned_onward (h : RealmTimers) (wake : Nat) (promised : Bool) :
    Onward h (h.returned wake promised) := by
  unfold returned
  simp only
  split
  · exact ⟨rfl, rfl, .inl ⟨rfl, rfl⟩⟩
  · have o := release_onward { h with inFire := none }
    exact ⟨o.arms, o.disposed, o.moved⟩

/-- What retracts the armed wake. -/
def Event.retracts : Event → Bool
  | .arm _ | .clear | .clearAll => true
  | _ => false

theorem step_onward (h : RealmTimers) {e : Event} (he : e.retracts = false) :
    Onward h (h.step e) := by
  cases e with
  | arm ms => cases he
  | clear => cases he
  | clearAll => cases he
  | charge wake ms =>
    simp only [step]
    split
    · obtain ⟨credit, creditAt, charged, forgiven, hc⟩ := charge_eq h ms
      rw [hc]
      exact ⟨rfl, rfl, .inl ⟨rfl, rfl⟩⟩
    · exact Onward.refl h
  | elapse ms => exact ⟨rfl, rfl, .inl ⟨rfl, rfl⟩⟩
  | timeout id =>
    simp only [step]
    split
    · rename_i t hf ht
      have o := attempt_onward { h with timeouts := h.timeouts.erase t } t.wake
      exact ⟨o.arms, o.disposed, o.moved⟩
    · exact Onward.refl h
  | returned promised =>
    simp only [step]
    split
    · exact returned_onward h _ promised
    · exact Onward.refl h
  | threw =>
    simp only [step]
    split
    · exact returned_onward h _ false
    · exact Onward.refl h
  | settled wake =>
    simp only [step]
    split
    · have o := release_onward { h with answers := h.answers.erase wake }
      exact ⟨o.arms, o.disposed, o.moved⟩
    · exact Onward.refl h

/-- A wake handed over later is the armed one, or one armed since. -/
theorem run_handovers (es : List Event) : ∀ h : RealmTimers, ∀ w ∈ (h.run es).handovers,
    w ∈ h.handovers ∨ h.armed = some w.wake ∨ h.arms ≤ w.wake := by
  induction es with
  | nil => exact fun h w hw => .inl hw
  | cons e es ih =>
    intro h w hw
    have hrest := ih (h.step e) w hw
    cases he : e.retracts
    · obtain ⟨harms, -, hmoved⟩ := step_onward h he
      rw [harms] at hrest
      rcases hmoved with ⟨hh, ha⟩ | ⟨w', ha, hh, hn⟩
      · rwa [hh, ha] at hrest
      · rw [hh, hn, List.mem_append, List.mem_singleton] at hrest
        rcases hrest with (hw | rfl) | hw | hw
        · exact .inl hw
        · exact .inr (.inl ha)
        · cases hw
        · exact .inr (.inr hw)
    · obtain ⟨timeouts, hc⟩ := clear_eq h
      cases e with
      | arm ms =>
        simp only [step, arm] at hrest
        split at hrest
        · exact hrest
        split at hrest
        · exact hrest
        simp only [hc, setTimeout, armed, Option.map_some, Option.some.injEq] at hrest
        rcases hrest with hw | hw | hw
        · exact .inl hw
        · exact .inr (.inr hw.le)
        · exact .inr (.inr (by omega))
      | clear =>
        simp only [step, hc] at hrest
        rcases hrest with hw | hw | hw
        · exact .inl hw
        · cases hw
        · exact .inr (.inr hw)
      | clearAll =>
        obtain ⟨timeouts, hc⟩ := clear_eq { h with disposed := true }
        simp only [step, clearAll, hc] at hrest
        rcases hrest with hw | hw | hw
        · exact .inl hw
        · cases hw
        · exact .inr (.inr hw)
      | _ => cases he

/-- Nothing is handed over past the end. -/
theorem Waked.ended (es : List Event) : ∀ {h : RealmTimers}, h.Waked → h.disposed = true →
    (h.run es).handovers = h.handovers := by
  induction es with
  | nil => exact fun _ _ => rfl
  | cons e es ih =>
    intro h q hd
    have hl : h.armed = none := by rw [armed, q.gone hd]; rfl
    have hstep : (h.step e).handovers = h.handovers ∧ (h.step e).disposed = true := by
      cases he : e.retracts
      · obtain ⟨-, hdis, hmoved⟩ := step_onward h he
        refine ⟨?_, by rw [hdis, hd]⟩
        rcases hmoved with ⟨hh, -⟩ | ⟨w, ha, -⟩
        · exact hh
        · rw [hl] at ha
          cases ha
      · obtain ⟨timeouts, hc⟩ := clear_eq h
        cases e with
        | arm ms => simp [RealmTimers.step, RealmTimers.arm, hd]
        | clear => simp [RealmTimers.step, hc, hd]
        | clearAll =>
          obtain ⟨timeouts, hc⟩ := clear_eq { h with disposed := true }
          simp [RealmTimers.step, RealmTimers.clearAll, hc]
        | _ => cases he
    rw [← hstep.1]
    exact ih (q.step e) hstep.2

/-- A wake was handed over, or has a timeout. -/
def Tried (h : RealmTimers) (wake : Nat) : Prop :=
  wake ∈ h.handovers.map (·.wake) ∨ wake ∈ h.timeouts.map (·.wake)

theorem attempt_tried {wake : Nat} {timer : Option Nat} (hl : h.live = some ⟨wake, timer⟩)
    (hf : h.firing = false) : (h.attempt wake).Tried wake := by
  unfold attempt Tried
  simp only [hl, Option.map_some, ne_eq, not_true_eq_false, if_false]
  rw [if_neg (by simp [hf])]
  split
  · exact .inr (by simp [setTimeout])
  · exact .inl (by simp [hand])

theorem release_tried {wake : Nat} (hl : h.live = some ⟨wake, none⟩) : h.release.Tried wake := by
  have ht := attempt_tried (h := { h with firing := false }) hl rfl
  unfold release
  simp only
  split
  · rename_i wake' hl'
    obtain rfl : wake = wake' := by simpa using hl.symm.trans hl'
    exact ht
  · rename_i hno
    exact absurd hl (hno wake)

/-- One wake is armed and one in flight, each armed wake is where something will attempt it, and
each is handed over once, with credit. -/
structure Orderly (h : RealmTimers) : Prop where
  oneArmed : h.timeouts.length ≤ 1
  oneInFlight : h.inFlight.length ≤ 1
  waits : ∀ wake, h.armed = some wake →
    wake ∈ h.timeouts.map (·.wake) ∨ h.live = some ⟨wake, none⟩ ∧ h.inFlight ≠ []
  once : (h.handovers.map (·.wake)).Nodup
  funded : h.paced = true → ∀ w ∈ h.handovers, Funded w

/-- What the next event does with the armed wake: it stays armed or is handed over, unless it is
retracted, and what was waited for attempts it. -/
structure Lasting (h : RealmTimers) : Prop where
  kept : ∀ e, e.retracts = false → Onward h (h.step e)
  timeout : ∀ t ∈ h.timeouts, h.inFire = none → h.inFlight = [] →
    (h.step (.timeout t.id)).Tried t.wake
  behind : ∀ t ∈ h.timeouts, h.inFire = none → h.inFlight ≠ [] →
    (h.step (.timeout t.id)).live = some ⟨t.wake, none⟩
  returned : ∀ wake, h.live = some ⟨wake, none⟩ → h.inFire ≠ none →
    (h.step (.returned false)).Tried wake ∧ (h.step .threw).Tried wake
  settled : ∀ wake w, h.live = some ⟨wake, none⟩ → h.inFire = none → w ∈ h.answers →
    (h.step (.settled w)).Tried wake

/-- Whom a later run hands over. -/
structure Final (h : RealmTimers) : Prop where
  later : ∀ es, ∀ w ∈ (h.run es).handovers,
    w ∈ h.handovers ∨ h.armed = some w.wake ∨ h.arms ≤ w.wake
  cleared : ∀ es, ∀ w ∈ (h.clear.run es).handovers, w ∈ h.handovers ∨ h.arms ≤ w.wake
  replaced : ∀ ms, (h.arm ms).1 = .ok () → (h.arm ms).2.armed = some h.arms ∧
    ∀ es, ∀ w ∈ ((h.arm ms).2.run es).handovers, w ∈ h.handovers ∨ h.arms ≤ w.wake
  ended : ∀ es, (h.clearAll.run es).handovers = h.handovers

theorem Waked.orderly (q : h.Waked) : h.Orderly where
  oneArmed := by
    have hp := q.placed
    unfold Placed at hp
    split at hp
    · simp [hp]
    · simp [hp.1]
    · obtain ⟨due, hd⟩ := hp
      simp [hd]
  oneInFlight := by
    have := q.flight
    split at this <;> omega
  waits := fun wake ha => by
    have hp := q.placed
    unfold Placed at hp
    split at hp
    · rename_i hl
      simp [armed, hl] at ha
    · rename_i wake' hl
      obtain rfl : wake' = wake := by simpa [armed, hl] using ha
      refine .inr ⟨hl, fun hnil => ?_⟩
      have := q.flight
      simp [hnil, hp.2] at this
    · rename_i wake' t hl
      obtain ⟨due, hd⟩ := hp
      obtain rfl : wake' = wake := by simpa [armed, hl] using ha
      exact .inl (by simp [hd])
  once := q.rising.imp fun h => h.ne
  funded := q.funded

/-- The armed wake's timeout fires. -/
theorem Waked.step_timeout (q : h.Waked) {t : Timeout} (ht : t ∈ h.timeouts) (hf : h.inFire = none) :
    h.live = some ⟨t.wake, some t.id⟩ ∧
      h.step (.timeout t.id) = { h with timeouts := [] }.attempt t.wake := by
  obtain ⟨t', hfind⟩ : ∃ t', h.timeouts.find? (·.id = t.id) = some t' := by
    cases hfind : h.timeouts.find? (·.id = t.id) with
    | none => simpa using List.find?_eq_none.1 hfind t ht
    | some t' => exact ⟨t', rfl⟩
  obtain ⟨hl, hts⟩ := q.timeout hfind
  obtain rfl : t = t' := by simpa [hts] using ht
  refine ⟨hl, ?_⟩
  have herase : h.timeouts.erase t = [] := by simp [hts]
  simp only [RealmTimers.step]
  split
  · rename_i t'' hf' ht'
    obtain rfl : t = t'' := by simpa [hfind] using ht'
    rw [herase]
  · rename_i hno
    exact absurd hfind (hno t hf)

theorem Waked.lasting (q : h.Waked) : h.Lasting where
  kept := fun e he => step_onward h he
  timeout := by
    intro t ht hf hnil
    obtain ⟨hl, hstep⟩ := q.step_timeout ht hf
    rw [hstep]
    have hfiring : h.firing = false := by
      have hflight := q.flight
      rw [hnil] at hflight
      by_contra hne
      rw [Bool.not_eq_false] at hne
      simp [hne] at hflight
    exact attempt_tried (h := { h with timeouts := [] }) hl hfiring
  behind := by
    intro t ht hf hne
    obtain ⟨hl, hstep⟩ := q.step_timeout ht hf
    rw [hstep]
    have hfiring : h.firing = true := by
      have hflight := q.flight
      by_contra hno
      rw [if_neg hno] at hflight
      exact hne (List.length_eq_zero_iff.1 hflight)
    unfold RealmTimers.attempt
    simp [hl, hfiring]
  returned := by
    intro wake hl hf
    obtain ⟨w, hw⟩ := Option.ne_none_iff_exists'.1 hf
    have ht := release_tried (h := { h with inFire := none }) hl
    simp only [RealmTimers.step, hw]
    exact ⟨ht, ht⟩
  settled := by
    intro wake w hl hf hw
    have ht := release_tried (h := { h with answers := h.answers.erase w }) hl
    simp only [RealmTimers.step]
    rw [if_pos ⟨hf, hw⟩]
    exact ht

theorem Waked.final (q : h.Waked) : h.Final where
  later := fun es => run_handovers es h
  cleared := by
    intro es w hw
    obtain ⟨timeouts, hc⟩ := clear_eq h
    have := run_handovers es _ w hw
    rw [hc] at this
    rcases this with hw | hw | hw
    · exact .inl hw
    · cases hw
    · exact .inr hw
  replaced := by
    intro ms hok
    obtain ⟨timeouts, hc⟩ := clear_eq h
    have hlater := fun es => run_handovers es (h.arm ms).2
    unfold RealmTimers.arm at hok hlater ⊢
    split at hok
    · cases hok
    rename_i hopen
    rw [if_neg hopen] at hlater ⊢
    cases hd : delay ms with
    | none => simp [hd] at hok
    | some d =>
      simp only [hd, hc, setTimeout] at hlater ⊢
      refine ⟨rfl, fun es w hw => ?_⟩
      rcases hlater es w hw with hw | hw | hw
      · exact .inl hw
      · have hw : h.arms = w.wake := by simpa [armed] using hw
        exact .inr hw.le
      · have hw : h.arms + 1 ≤ w.wake := hw
        exact .inr (by omega)
  ended := by
    intro es
    obtain ⟨timeouts, hc⟩ := clear_eq { h with disposed := true }
    have hd : h.clearAll.disposed = true := by
      unfold RealmTimers.clearAll
      rw [hc]
    have hh : h.clearAll.handovers = h.handovers := by
      unfold RealmTimers.clearAll
      rw [hc]
    rw [← hh]
    exact q.clearAll.ended es hd

/-- The wakes of a realm, over every run. -/
theorem run_wakes (budgetMs : Option ℚ) (clockDivisor now : ℚ) (es : List Event) :
    ((create budgetMs clockDivisor now).run es).Orderly ∧
      ((create budgetMs clockDivisor now).run es).Lasting ∧
      ((create budgetMs clockDivisor now).run es).Final :=
  have q := (create_waked budgetMs clockDivisor now).run es
  ⟨q.orderly, q.lasting, q.final⟩

/-! ### The realm's share of the clock -/

/-- A charge does not take the account below its floor. -/
def covers (h : RealmTimers) : Event → Prop
  | .charge _ ms => h.accrue.overdraft ms = 0
  | _ => True

/-- No charge of the run does. -/
def Covered : RealmTimers → List Event → Prop
  | _, [] => True
  | h, e :: es => h.covers e ∧ Covered (h.step e) es

/-- What has been charged is paid from the bank and the share of the time that has passed, but
for what the account did not take: nothing, where every charge was covered. -/
structure Account (b d t₀ : ℚ) (full : Prop) (h : RealmTimers) : Prop where
  budget : h.budgetMs = some b
  divisor : h.clockDivisor = d
  created : h.created = t₀
  paid : full → h.forgiven = 0 ∧ ∀ w ∈ h.handovers, w.forgiven = 0
  credit : ∃ c, h.credit = some c ∧ -b ≤ c ∧
    h.charged - h.forgiven + c ≤ b + (h.creditAt - t₀) / d
  before : h.creditAt ≤ h.now
  given : ∀ w ∈ h.handovers, w.at' ≤ h.now ∧
    w.charged - w.forgiven < b + (w.at' - t₀) / d

variable {b d t₀ : ℚ} {full : Prop}

theorem Account.accrue (a : Account b d t₀ full h) (hd : 0 < d) :
    Account b d t₀ full h.accrue ∧ h.accrue.creditAt = h.accrue.now := by
  obtain ⟨c, hc, hlow, htotal⟩ := a.credit
  unfold RealmTimers.accrue
  simp only
  split
  · rename_i hel
    have hshare : h.charged - h.forgiven +
        max (-b) (min b (c + (h.now - h.creditAt) / d)) ≤ b + (h.now - t₀) / d := by
      have hpos : 0 < (h.now - h.creditAt) / d := div_pos hel hd
      have hle : max (-b) (min b (c + (h.now - h.creditAt) / d)) ≤ c + (h.now - h.creditAt) / d :=
        max_le (by linarith) (min_le_right _ _)
      have hsplit : (h.now - t₀) / d = (h.now - h.creditAt) / d + (h.creditAt - t₀) / d := by
        rw [← add_div]
        congr 1
        ring
      linarith
    simp only [onCredit, a.budget, hc, a.divisor]
    exact ⟨{ a with
      budget := rfl
      divisor := rfl
      credit := ⟨_, rfl, le_max_left _ _, hshare⟩
      before := le_rfl }, trivial⟩
  · rename_i hel
    have heq : h.creditAt = h.now := le_antisymm a.before (by linarith)
    exact ⟨{ a with
      credit := ⟨c, hc, hlow, by rw [heq] at htotal; exact htotal⟩
      before := le_rfl }, rfl⟩

theorem Account.charge (a : Account b d t₀ full h) (hd : 0 < d) (ms : ℚ)
    (hms : full → h.accrue.overdraft ms = 0) : Account b d t₀ full (h.charge ms) := by
  unfold RealmTimers.charge
  split
  · have a' := (a.accrue hd).1
    obtain ⟨c, hc, hlow, htotal⟩ := a'.credit
    simp only [onCredit, overdraft, a'.budget, hc] at hms ⊢
    exact { a' with
      budget := rfl
      paid := fun hfull => by
        obtain ⟨hz, hall⟩ := a'.paid hfull
        refine ⟨?_, hall⟩
        simp only
        rw [hz, hms hfull, add_zero]
      credit := by
        refine ⟨_, rfl, le_max_left _ _, ?_⟩
        simp only
        rcases le_total (-b) (c - ms) with hle | hle
        · rw [max_eq_right hle, max_eq_left (by linarith)]
          linarith
        · rw [max_eq_left hle, max_eq_right (by linarith)]
          linarith }
  · exact a

theorem Account.attempt (a : Account b d t₀ full h) (hb : 0 < b) (hd : 0 < d) (wake : Nat) :
    Account b d t₀ full (h.attempt wake) := by
  unfold RealmTimers.attempt
  split
  · exact a
  simp only
  have a' : Account b d t₀ full { h with live := some ⟨wake, none⟩ } := { a with }
  split
  · exact a'
  obtain ⟨a'', hat⟩ := a'.accrue hd
  obtain ⟨c, hc, hlow, htotal⟩ := a''.credit
  split
  · exact { a'' with }
  · rename_i hspent
    have hpaced : ({ h with live := some ⟨wake, none⟩ } : RealmTimers).accrue.paced = true := by
      simp [paced, a''.budget, hb]
    have hpos : 0 < c := by
      simp only [spent, hpaced, if_true, hc] at hspent
      simpa [Option.filter] using hspent
    rw [hat] at htotal
    exact { a'' with
      paid := fun hfull => by
        obtain ⟨hz, hall⟩ := a''.paid hfull
        refine ⟨hz, fun w hw => ?_⟩
        rcases List.mem_append.1 hw with hw | hw
        · exact hall w hw
        · rw [List.mem_singleton.1 hw]
          exact hz
      given := fun w hw => by
        rcases List.mem_append.1 hw with hw | hw
        · exact a''.given w hw
        · rw [List.mem_singleton.1 hw]
          refine ⟨le_rfl, ?_⟩
          simp only
          linarith }

theorem Account.clear (a : Account b d t₀ full h) : Account b d t₀ full h.clear := by
  obtain ⟨timeouts, hc⟩ := clear_eq h
  rw [hc]
  exact { a with }

theorem Account.release (a : Account b d t₀ full h) (hb : 0 < b) (hd : 0 < d) :
    Account b d t₀ full h.release := by
  have a' : Account b d t₀ full { h with firing := false } := { a with }
  unfold RealmTimers.release
  simp only
  split
  · exact a'.attempt hb hd _
  · exact a'

theorem Account.returned (a : Account b d t₀ full h) (hb : 0 < b) (hd : 0 < d) (wake : Nat)
    (promised : Bool) : Account b d t₀ full (h.returned wake promised) := by
  have a' : Account b d t₀ full { h with inFire := none } := { a with }
  unfold RealmTimers.returned
  simp only
  split
  · exact { a' with }
  · exact a'.release hb hd

theorem Account.step (a : Account b d t₀ full h) (hb : 0 < b) (hd : 0 < d) (e : Event)
    (he : full → h.covers e) : Account b d t₀ full (h.step e) := by
  cases e with
  | arm ms =>
    simp only [RealmTimers.step, RealmTimers.arm]
    split
    · exact a
    split
    · exact a
    have a' := a.clear
    exact { a' with }
  | clear => exact a.clear
  | clearAll =>
    have a' : Account b d t₀ full { h with disposed := true } := { a with }
    exact a'.clear
  | charge wake ms =>
    simp only [RealmTimers.step]
    split
    · exact a.charge hd ms he
    · exact a
  | elapse ms =>
    have hle : h.now ≤ h.now + max ms 0 := by linarith [le_max_right ms 0]
    exact { a with
      before := a.before.trans hle
      given := fun w hw => ⟨(a.given w hw).1.trans hle, (a.given w hw).2⟩ }
  | timeout id =>
    simp only [RealmTimers.step]
    split
    · rename_i t hf ht
      have a' : Account b d t₀ full { h with timeouts := h.timeouts.erase t } := { a with }
      exact a'.attempt hb hd t.wake
    · exact a
  | returned promised =>
    simp only [RealmTimers.step]
    split
    · exact a.returned hb hd _ promised
    · exact a
  | threw =>
    simp only [RealmTimers.step]
    split
    · exact a.returned hb hd _ false
    · exact a
  | settled wake =>
    simp only [RealmTimers.step]
    split
    · have a' : Account b d t₀ full { h with answers := h.answers.erase wake } := { a with }
      exact a'.release hb hd
    · exact a

theorem Account.run (hb : 0 < b) (hd : 0 < d) (es : List Event) : ∀ {h : RealmTimers},
    Account b d t₀ full h → (full → h.Covered es) → Account b d t₀ full (h.run es) := by
  induction es with
  | nil => exact fun a _ => a
  | cons e es ih => exact fun a hc => ih (a.step hb hd e fun hf => (hc hf).1) fun hf => (hc hf).2

theorem create_account (hb : 0 < b) (full : Prop) :
    Account b d t₀ full (create (some b) d t₀) where
  budget := rfl
  divisor := rfl
  created := rfl
  paid := fun _ => ⟨rfl, fun w hw => by cases hw⟩
  credit := ⟨b, rfl, by linarith, by simp [create]⟩
  before := le_rfl
  given := fun w hw => by cases hw

/-- What is charged to the account stays within the bank and the share of the clock. -/
theorem run_share (b d t₀ : ℚ) (hb : 0 < b) (hd : 0 < d) (es : List Event) :
    (∀ w ∈ ((create (some b) d t₀).run es).handovers,
      w.charged - w.forgiven < b + (w.at' - t₀) / d ∧
      ((create (some b) d t₀).run es).charged - w.forgiven <
        b + (((create (some b) d t₀).run es).now - t₀) / d +
          (((create (some b) d t₀).run es).charged - w.charged) ∧
      ((create (some b) d t₀).Covered es → w.charged < b + (w.at' - t₀) / d)) ∧
    ((create (some b) d t₀).run es).charged - ((create (some b) d t₀).run es).forgiven ≤
      2 * b + (((create (some b) d t₀).run es).now - t₀) / d := by
  have created : Account b d t₀ ((create (some b) d t₀).Covered es) (create (some b) d t₀) :=
    create_account hb _
  have a := created.run
    hb hd es id
  refine ⟨fun w hw => ?_, ?_⟩
  · obtain ⟨hat, hlt⟩ := a.given w hw
    refine ⟨hlt, ?_, fun hc => ?_⟩
    · have := (div_le_div_iff_of_pos_right hd).2 (sub_le_sub_right hat t₀)
      linarith
    · rw [(a.paid hc).2 w hw, sub_zero] at hlt
      exact hlt
  · obtain ⟨c, hc, hlow, htotal⟩ := a.credit
    have := (div_le_div_iff_of_pos_right hd).2 (sub_le_sub_right a.before t₀)
    linarith

/-- Four charges of a whole invocation each, made through the clock of one wake. -/
def fourCharges : List Event :=
  [.arm (.fin 0), .timeout 0, .charge 0 5000, .charge 0 5000, .charge 0 5000, .charge 0 5000,
    .returned false, .elapse 80016, .arm (.fin 0), .timeout 1]

theorem fourCharges_share :
    0 < (5000 : ℚ) ∧ (0 : ℚ) < 16 ∧
      ((create (some 5000) 16 0).run fourCharges).charged -
        ((create (some 5000) 16 0).run fourCharges).forgiven ≤
        2 * 5000 + (((create (some 5000) 16 0).run fourCharges).now - 0) / 16 :=
  ⟨by norm_num, by norm_num, (run_share 5000 16 0 (by norm_num) (by norm_num) fourCharges).2⟩

/-- The account stops at its floor: 20 s are charged by the second wake, of which the bank and the
share pay for 10. -/
theorem fourCharges_over :
    ¬ ∀ es, ∀ w ∈ ((create (some 5000) 16 0).run es).handovers,
      w.charged < 5000 + (w.at' - 0) / 16 := by
  intro hall
  have := hall fourCharges ⟨1, 80016, 20000, 10000, some 1⟩ (by decide +kernel)
  norm_num at this

end RealmTimers

end SeedTransport
