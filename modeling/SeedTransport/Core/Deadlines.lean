import SeedTransport.Lib.OrdMap
import Mathlib

set_option autoImplicit false

namespace SeedTransport

/-! The deadlines of the transport (`core.js`, `dueIn` to `onWake` and the head of `handle`):
one wake of the host serves every timer, and the host may refuse to arm it, as it is asked or
later. -/

/-- When a timer is due; `⊤` is `Infinity`, for none. -/
abbrev Due : Type := WithTop ℚ

/-- Who holds deadlines, as `onWake` walks them. -/
inductive Holder where
  | reqres
  | ready
  | relays
  | udp
  | link (id : Nat)
  deriving DecidableEq

/-- A timer of a holder: a link's `due`, a correlation's, a stream's `recoveryAt`. -/
abbrev Timer : Type := Holder × Nat

/-- The variables of `core.js`, and the timers. `owed` has, for each call to be asked again,
the time its `dueIn` gave. The last two are for an observer: the arms the host has not
answered, by their `gen`, and the wake that is asked for: the latest, unless it was refused or
a wake came since. -/
structure Scheduler where
  now : ℚ
  wakeAt : Due
  armGen : Nat
  owedAt : Due
  walking : Bool
  owed : List ℚ
  due : OrdMap Timer ℚ
  asks : List (Nat × ℚ)
  armed : Due

namespace Scheduler

def RETRY_MS : ℚ := 100

def create : Scheduler := ⟨0, ⊤, 0, ⊤, false, [], .empty, [], ⊤⟩

/-- The delay an arm asks for. -/
def armMs (at' : ℚ) (s : Scheduler) : ℤ := min 0x7fffffff (max 0 ⌈at' - s.now⌉)

/-- The host refuses the arm `gen`: a stale refusal changes nothing. -/
def refused (gen : Nat) (at' : ℚ) (s : Scheduler) : Scheduler :=
  if gen ≠ s.armGen then s else { s with wakeAt := ⊤, owedAt := at', armed := ⊤ }

/-- `arm`; `thrown` is a refusal as it is asked. -/
def arm (at' : ℚ) (thrown : Bool) (s : Scheduler) : Scheduler :=
  let gen := s.armGen + 1
  let s := { s with armGen := gen, owedAt := ⊤ }
  if thrown then s.refused gen at' else { s with asks := s.asks ++ [(gen, at')], armed := at' }

/-- Make sure a wake comes by `at'`. -/
def wakeBy (at' : Due) (thrown : Bool) (s : Scheduler) : Scheduler :=
  match at' with
  | none => s
  | some a =>
    if s.wakeAt ≤ a then s
    else
      let s := { s with wakeAt := a }
      if s.walking then s else s.arm a thrown

/-- A field set to `dueIn(ms)`. -/
def dueIn (k : Timer) (ms : ℚ) (thrown : Bool) (s : Scheduler) : Scheduler :=
  { s.wakeBy ((s.now + ms : ℚ) : Due) thrown with due := s.due.set k (s.now + ms) }

/-- `UdpStream.arm`: a wake due no later is kept. -/
def recover (k : Timer) (at' : ℚ) (thrown : Bool) (s : Scheduler) : Scheduler :=
  match s.due.get k with
  | some recoveryAt =>
    if recoveryAt ≤ at' then s else { s.wakeBy at' thrown with due := s.due.set k at' }
  | none => { s.wakeBy at' thrown with due := s.due.set k at' }

/-- `callRetried`; `refused` is a call the budget refuses. -/
def callRetried (refused thrown : Bool) (s : Scheduler) : Scheduler :=
  if refused then
    { s.wakeBy ((s.now + RETRY_MS : ℚ) : Due) thrown with owed := s.owed ++ [s.now + RETRY_MS] }
  else s

/-- What the holders do: they set a timer, move one nearer, end one, put one off until later,
or make a call that nothing waits on. -/
inductive Act where
  | due (k : Timer) (ms : ℚ) (thrown : Bool)
  | recover (k : Timer) (at' : ℚ) (thrown : Bool)
  | clear (k : Timer)
  | postpone (k : Timer) (at' : ℚ)
  | callRetried (refused thrown : Bool)

def postpone (k : Timer) (at' : ℚ) (s : Scheduler) : Scheduler :=
  match s.due.get k with
  | none => s
  | some d => if d ≤ at' then { s with due := s.due.set k at' } else s

def act (s : Scheduler) : Act → Scheduler
  | .due k ms thrown => s.dueIn k ms thrown
  | .recover k at' thrown => s.recover k at' thrown
  | .clear k => { s with due := s.due.delete k }
  | .postpone k at' => s.postpone k at'
  | .callRetried refused thrown => s.callRetried refused thrown

def perform (s : Scheduler) (acts : List Act) : Scheduler := acts.foldl act s

/-- What a holder's `onWake` answers: its soonest deadline. -/
def soonest (h : Holder) (s : Scheduler) : Due :=
  (s.due.entries.filter fun e => e.1.1 = h).foldr (fun e next => min (e.2 : Due) next) ⊤

/-- One wake, in the turns of its parts: which of the calls owed are refused again, what each
holder does in its turn, the links that came up meanwhile, where the walk throws, and whether
the arm at its end is refused. -/
structure Walk where
  retried : List Bool
  visits : List (List Act)
  more : List Holder
  throws : Option Nat
  thrown : Bool

/-- The walk over the holders; false when it throws. -/
def walkLoop : List Holder → List (List Act) → Option Nat → Scheduler → Bool × Scheduler
  | [], _, _, s => (true, s)
  | h :: hs, visits, throws, s =>
    let s := s.perform (visits.headD [])
    match throws with
    | some 0 => (false, s)
    | _ => walkLoop hs visits.tail (throws.map (· - 1)) (s.wakeBy (s.soonest h) false)

/-- The holders a walk meets: a link without a deadline answers `Infinity`. -/
def order (more : List Holder) (s : Scheduler) : List Holder :=
  [.reqres, .ready, .relays, .udp] ++ s.due.keys.map Prod.fst ++ more

/-- `onWake` up to the end of its walk; false when it throws. -/
def walk (w : Walk) (s : Scheduler) : Bool × Scheduler :=
  let s := { s with wakeAt := ⊤, walking := true, armed := ⊤, owed := [] }
  let s := w.retried.foldl (fun s refused => s.callRetried refused false) s
  walkLoop (s.order w.more) w.visits w.throws s

def onWake (w : Walk) (s : Scheduler) : Scheduler :=
  match s.walk w with
  | (false, s) => { s with walking := false }
  | (true, s) =>
    let s := { s with walking := false }
    match s.wakeAt with
    | none => s
    | some a => s.arm a w.thrown

inductive Event where
  /-- An event into the realm: what was owed is asked again, then its handler runs. -/
  | turn (thrown : Bool) (acts : List Act)
  /-- An earlier turn goes on. -/
  | resume (acts : List Act)
  | wake (thrown : Bool) (w : Walk)
  /-- The host answers an arm. -/
  | answer (gen : Nat) (ok : Bool)
  | elapse (ms : ℚ)

/-- The head of `handle`. -/
def handle (thrown : Bool) (s : Scheduler) : Scheduler := s.wakeBy s.owedAt thrown

def answer (gen : Nat) (ok : Bool) (s : Scheduler) : Scheduler :=
  match s.asks.find? fun a => a.1 = gen with
  | none => s
  | some (_, at') =>
    let s := { s with asks := s.asks.filter fun a => a.1 ≠ gen }
    if ok then s else s.refused gen at'

def step (s : Scheduler) : Event → Scheduler
  | .turn thrown acts => (s.handle thrown).perform acts
  | .resume acts => s.perform acts
  | .wake thrown w => (s.handle thrown).onWake w
  | .answer gen ok => s.answer gen ok
  | .elapse ms => { s with now := s.now + ms }

def run (s : Scheduler) (evs : List Event) : Scheduler := evs.foldl step s

/-! ### Deadlines and wakes -/

/-- A deadline that is held. -/
def Held (s : Scheduler) (d : ℚ) : Prop := d ∈ s.owed ∨ ∃ k, s.due.get k = some d

/-- A wake for `d` is asked for, or the next event asks for it. -/
def Covered (s : Scheduler) (d : ℚ) : Prop := s.armed ≤ d ∨ s.owedAt ≤ d

/-- Between two acts: the deadlines of `H` are covered, and the variables say what is asked. -/
structure Kept (H : ℚ → Prop) (s : Scheduler) : Prop where
  calm : s.walking = false
  armed : s.armed = s.wakeAt
  single : s.wakeAt ≠ ⊤ → s.owedAt = ⊤
  asks : ∀ g a, (g, a) ∈ s.asks → g ≤ s.armGen ∧ (g = s.armGen → s.owedAt = ⊤ ∧ (s.wakeAt = a ∨ s.wakeAt = ⊤))
  covered : ∀ d, H d → s.wakeAt ≤ d ∨ s.owedAt ≤ d

/-- No earlier deadline is left owed when a wake is asked for `at'`. -/
def Heeds (H : ℚ → Prop) (at' : ℚ) (s : Scheduler) : Prop :=
  s.owedAt = ⊤ ∨ ∀ d, H d → at' ≤ d

section Kept

variable {H : ℚ → Prop} {s : Scheduler}

theorem Kept.mono (h : Kept H s) {H' : ℚ → Prop} (hH : ∀ d, H' d → H d) : Kept H' s :=
  { h with covered := fun d hd => h.covered d (hH d hd) }

theorem Kept.arm (hs : s.walking = false) (hasks : ∀ g a, (g, a) ∈ s.asks → g ≤ s.armGen) {a : ℚ}
    (hw : s.wakeAt = a) (hH : ∀ d, H d → a ≤ d) (thrown : Bool) : Kept H (s.arm a thrown) := by
  -- an earlier ask is a stale one now
  have stale : ∀ g b, (g, b) ∈ s.asks → g ≤ s.armGen + 1 ∧ g ≠ s.armGen + 1 := fun g b hb => by
    have := hasks g b hb
    exact ⟨by omega, by omega⟩
  unfold Scheduler.arm refused
  cases thrown with
  | true =>
    simp only [if_true, ne_eq, not_true_eq_false, if_false]
    refine ⟨hs, rfl, fun hn => absurd rfl hn, fun g b hb => ?_, fun d hd => ?_⟩
    · exact ⟨(stale g b hb).1, fun he => absurd he (stale g b hb).2⟩
    · exact .inr (WithTop.coe_le_coe.2 (hH d hd))
  | false =>
    simp only [Bool.false_eq_true, if_false]
    refine ⟨hs, hw.symm, fun _ => rfl, fun g b hb => ?_, fun d hd => ?_⟩
    · rcases List.mem_append.1 hb with hb | hb
      · exact ⟨(stale g b hb).1, fun he => absurd he (stale g b hb).2⟩
      · obtain ⟨rfl, rfl⟩ := Prod.mk.inj (List.mem_singleton.1 hb)
        exact ⟨le_rfl, fun _ => ⟨rfl, .inl hw⟩⟩
    · refine .inl ?_
      show s.wakeAt ≤ d
      rw [hw]
      exact WithTop.coe_le_coe.2 (hH d hd)

/-- A wake asked for `a` covers `a` and, heeding what is owed, all that was covered. -/
theorem Kept.wakeBy (h : Kept H s) {a : ℚ} (ha : Heeds H a s) (thrown : Bool) :
    Kept (fun d => H d ∨ d = a) (s.wakeBy (a : Due) thrown) := by
  unfold Scheduler.wakeBy
  simp only
  split
  · rename_i hle
    refine { h with covered := fun d hd => ?_ }
    rcases hd with hd | rfl
    · exact h.covered d hd
    · exact .inl hle
  · rename_i hlt
    rw [if_neg (by simp [h.calm])]
    refine Kept.arm (s := { s with wakeAt := a }) h.calm (fun g b hb => (h.asks g b hb).1) rfl (fun d hd => ?_)
      thrown
    rcases hd with hd | rfl
    · rcases ha with ha | ha
      · rcases h.covered d hd with hc | hc
        · exact WithTop.coe_le_coe.1 ((not_le.1 hlt).le.trans hc)
        · simp [ha] at hc
      · exact ha d hd
    · exact le_rfl

theorem Kept.timers (h : Kept H s) (due : OrdMap Timer ℚ) (owed : List ℚ) :
    Kept H { s with due := due, owed := owed } :=
  ⟨h.calm, h.armed, h.single, h.asks, h.covered⟩

/-- What is owed is asked for again before anything else. -/
theorem Kept.handle (h : Kept H s) (thrown : Bool) : Kept H (s.handle thrown) := by
  unfold Scheduler.handle
  rcases eq_or_ne s.owedAt ⊤ with ho | ho
  · rw [ho]
    exact h
  · have hw : s.wakeAt = ⊤ := by
      by_contra hn
      exact ho (h.single hn)
    obtain ⟨a, ha⟩ := WithTop.ne_top_iff_exists.1 ho
    rw [← ha]
    refine (h.wakeBy (.inr fun d hd => ?_) thrown).mono fun d hd => .inl hd
    rcases h.covered d hd with hc | hc
    · simp [hw] at hc
    · rw [← ha] at hc
      exact WithTop.coe_le_coe.1 hc

/-- A refusal of the latest arm leaves what it covered owed. -/
theorem Kept.answer (h : Kept H s) (gen : Nat) (ok : Bool) : Kept H (s.answer gen ok) := by
  unfold Scheduler.answer
  split
  · exact h
  · rename_i g a hfind
    have hmem : (g, a) ∈ s.asks := List.mem_of_find?_eq_some hfind
    have hg : g = gen := by simpa using List.find?_some hfind
    subst hg
    have hfilter : ∀ g' b, (g', b) ∈ s.asks.filter (fun x => decide (x.1 ≠ g)) → (g', b) ∈ s.asks ∧ g' ≠ g := by
      intro g' b hb
      simpa using hb
    have hkept : Kept H { s with asks := s.asks.filter fun x => x.1 ≠ g } :=
      ⟨h.calm, h.armed, h.single, fun g' b hb => h.asks g' b (hfilter g' b hb).1, h.covered⟩
    simp only
    split
    · exact hkept
    · unfold refused
      split
      · exact hkept
      · rename_i hlast
        have hlast : g = s.armGen := not_not.1 hlast
        obtain ⟨howed, hwake⟩ := (h.asks g a hmem).2 hlast
        refine ⟨h.calm, rfl, fun hn => absurd rfl hn, fun g' b hb => ?_, fun d hd => ?_⟩
        · obtain ⟨hb, hne⟩ := hfilter g' b hb
          exact ⟨(h.asks g' b hb).1, fun he => absurd (he.trans hlast.symm) hne⟩
        · rcases h.covered d hd with hc | hc
          · rcases hwake with hw | hw
            · rw [hw] at hc
              exact .inr hc
            · simp [hw] at hc
          · simp [howed] at hc

end Kept

/-! ### Acts -/

/-- What an act asks of the state before it, outside a walk. -/
def HeedsAct (s : Scheduler) : Act → Prop
  | .due k ms _ => Heeds (Held { s with due := s.due.delete k }) (s.now + ms) s
  | .recover k at' _ => (∃ r, s.due.get k = some r ∧ r ≤ at') ∨
      Heeds (Held { s with due := s.due.delete k }) at' s
  | .callRetried refused _ => refused = true → Heeds (Held s) (s.now + RETRY_MS) s
  | _ => True

theorem held_set {s : Scheduler} {k : Timer} {a d : ℚ} (h : Held { s with due := s.due.set k a } d) :
    Held { s with due := s.due.delete k } d ∨ d = a := by
  rcases h with h | ⟨k', h⟩
  · exact .inl (.inl h)
  · simp only [OrdMap.get_set] at h
    split at h
    · exact .inr (Option.some.inj h).symm
    · rename_i hne
      exact .inl (.inr ⟨k', by simpa [OrdMap.get_delete, hne] using h⟩)

theorem held_delete {s : Scheduler} {k : Timer} {d : ℚ} (h : Held { s with due := s.due.delete k } d) :
    Held s d := by
  rcases h with h | ⟨k', h⟩
  · exact .inl h
  · simp only [OrdMap.get_delete] at h
    split at h
    · cases h
    · exact .inr ⟨k', h⟩

theorem held_congr {s t : Scheduler} (hdue : t.due = s.due) (howed : t.owed = s.owed) {d : ℚ} :
    Held t d ↔ Held s d := by
  unfold Held
  rw [hdue, howed]

/-- An arm moves nothing but the wake. -/
theorem arm_same (a : ℚ) (thrown : Bool) (s : Scheduler) : ∃ w g o asks armed,
    s.arm a thrown = { s with wakeAt := w, armGen := g, owedAt := o, asks := asks, armed := armed } := by
  unfold arm refused
  cases thrown with
  | true => exact ⟨⊤, s.armGen + 1, a, s.asks, ⊤, by simp⟩
  | false => exact ⟨_, _, _, _, _, rfl⟩

theorem wakeBy_same (at' : Due) (thrown : Bool) (s : Scheduler) : ∃ w g o asks armed,
    s.wakeBy at' thrown = { s with wakeAt := w, armGen := g, owedAt := o, asks := asks, armed := armed } := by
  unfold wakeBy
  split
  · exact ⟨_, _, _, _, _, rfl⟩
  · split
    · exact ⟨_, _, _, _, _, rfl⟩
    · simp only
      split
      · exact ⟨_, _, _, _, _, rfl⟩
      · exact arm_same _ thrown _

@[simp] theorem wakeBy_owed (at' : Due) (thrown : Bool) (s : Scheduler) : (s.wakeBy at' thrown).owed = s.owed := by
  obtain ⟨_, _, _, _, _, h⟩ := wakeBy_same at' thrown s
  rw [h]

@[simp] theorem wakeBy_due (at' : Due) (thrown : Bool) (s : Scheduler) : (s.wakeBy at' thrown).due = s.due := by
  obtain ⟨_, _, _, _, _, h⟩ := wakeBy_same at' thrown s
  rw [h]

section Acts

variable {s : Scheduler}

/-- A timer set anew, with a wake asked for it. -/
theorem Kept.set (h : Kept (Held s) s) {k : Timer} {a : ℚ}
    (ha : Heeds (Held { s with due := s.due.delete k }) a s) (thrown : Bool) :
    Kept (Held { s.wakeBy (a : Due) thrown with due := s.due.set k a })
      { s.wakeBy (a : Due) thrown with due := s.due.set k a } := by
  have hk := (h.mono fun d hd => held_delete hd).wakeBy ha thrown
  refine (hk.timers (s.due.set k a) (s.wakeBy (a : Due) thrown).owed).mono fun d hd => ?_
  exact held_set (s := s) ((held_congr (t := { s.wakeBy (a : Due) thrown with due := s.due.set k a })
    (s := { s with due := s.due.set k a }) rfl (wakeBy_owed _ thrown s)).1 hd)

theorem Kept.postpone (h : Kept (Held s) s) (k : Timer) (a : ℚ) :
    Kept (Held (s.postpone k a)) (s.postpone k a) := by
  unfold Scheduler.postpone
  split
  · exact h
  · rename_i r hr
    split
    · rename_i hle
      refine { h with covered := fun d hd => ?_ }
      rcases held_set hd with hd | rfl
      · exact h.covered d (held_delete hd)
      · have hle' : (r : Due) ≤ d := WithTop.coe_le_coe.2 hle
        rcases h.covered r (.inr ⟨k, hr⟩) with hc | hc
        · exact .inl (hc.trans hle')
        · exact .inr (hc.trans hle')
    · exact h

theorem Kept.act (h : Kept (Held s) s) {a : Act} (ha : HeedsAct s a) : Kept (Held (s.act a)) (s.act a) := by
  cases a with
  | due k ms thrown => exact h.set ha thrown
  | recover k at' thrown =>
    simp only [Scheduler.act, recover]
    rcases ha with ⟨r, hr, hle⟩ | ha
    · simp only [hr, if_pos hle]
      exact h
    · split
      · split
        · exact h
        · exact h.set ha thrown
      · exact h.set ha thrown
  | clear k => exact { h with covered := fun d hd => h.covered d (held_delete hd) }
  | postpone k at' => exact h.postpone k at'
  | callRetried refused thrown =>
    simp only [Scheduler.act, callRetried]
    split
    · rename_i hr
      have hk := h.wakeBy (ha hr) thrown
      refine (hk.timers (s.wakeBy _ thrown).due _).mono fun d hd => ?_
      rcases hd with hd | ⟨k, hd⟩
      · rcases List.mem_append.1 hd with hd | hd
        · exact .inl (.inl hd)
        · exact .inr (List.mem_singleton.1 hd)
      · exact .inl (.inr ⟨k, by simpa using hd⟩)
    · exact h

/-- Every act of a turn heeds what is owed where it happens. -/
def HeedsAll : Scheduler → List Act → Prop
  | _, [] => True
  | s, a :: acts => HeedsAct s a ∧ HeedsAll (s.act a) acts

theorem Kept.perform (h : Kept (Held s) s) {acts : List Act} (ha : HeedsAll s acts) :
    Kept (Held (s.perform acts)) (s.perform acts) := by
  induction acts generalizing s with
  | nil => exact h
  | cons a acts ih => exact ih (h.act ha.1) ha.2

end Acts

/-! ### A walk -/

/-- In a walk: the deadlines of the holders in `P` are seen, and nothing was asked of the host. -/
structure Swept (P : Holder → Prop) (s₀ s : Scheduler) : Prop where
  walking : s.walking = true
  armed : s.armed = ⊤
  same : s.armGen = s₀.armGen ∧ s.owedAt = s₀.owedAt ∧ s.asks = s₀.asks
  owed : ∀ d ∈ s.owed, s.wakeAt ≤ d
  due : ∀ k d, s.due.get k = some d → P k.1 → s.wakeAt ≤ d

section Walk

variable {P : Holder → Prop} {s₀ s : Scheduler}

/-- A wake looked for in a walk. -/
theorem wakeBy_walking (hw : s.walking = true) (at' : Due) (thrown : Bool) :
    s.wakeBy at' thrown = { s with wakeAt := min s.wakeAt at' } := by
  unfold wakeBy
  split
  · show s = { s with wakeAt := min s.wakeAt ⊤ }
    rw [min_eq_left le_top]
  · rename_i a
    split
    · rename_i hle
      have hmin : min s.wakeAt (some a) = s.wakeAt := min_eq_left hle
      rw [hmin]
    · rename_i hlt
      have hmin : min s.wakeAt (some a) = some a := min_eq_right (not_le.1 hlt).le
      simp only [hw, if_true, hmin]
      rfl

theorem Swept.wakeBy (h : Swept P s₀ s) (at' : Due) (thrown : Bool) :
    Swept P s₀ (s.wakeBy at' thrown) := by
  rw [wakeBy_walking h.walking]
  exact ⟨h.walking, h.armed, h.same, fun d hd => (min_le_left _ _).trans (h.owed d hd),
    fun k d hk hp => (min_le_left _ _).trans (h.due k d hk hp)⟩

theorem wakeBy_le (h : Swept P s₀ s) (at' : Due) (thrown : Bool) : (s.wakeBy at' thrown).wakeAt ≤ at' := by
  rw [wakeBy_walking h.walking]
  exact min_le_right _ _

theorem Swept.set (h : Swept P s₀ s) (k : Timer) (a : ℚ) (thrown : Bool) :
    Swept P s₀ { s.wakeBy (a : Due) thrown with due := s.due.set k a } := by
  have hw := h.wakeBy (a : Due) thrown
  refine ⟨hw.walking, hw.armed, hw.same, hw.owed, fun k' d hk hp => ?_⟩
  simp only [OrdMap.get_set] at hk
  split at hk
  · rw [← Option.some.inj hk]
    exact wakeBy_le h _ thrown
  · exact hw.due k' d (by simpa using hk) hp

theorem Swept.callRetried (h : Swept P s₀ s) (refused thrown : Bool) :
    Swept P s₀ (s.callRetried refused thrown) := by
  unfold Scheduler.callRetried
  split
  · have hw := h.wakeBy ((s.now + RETRY_MS : ℚ) : Due) thrown
    refine ⟨hw.walking, hw.armed, hw.same, fun d hd => ?_, hw.due⟩
    rcases List.mem_append.1 hd with hd | hd
    · exact hw.owed d (by simpa using hd)
    · rw [List.mem_singleton.1 hd]
      exact wakeBy_le h _ thrown
  · exact h

theorem Swept.act (h : Swept P s₀ s) (a : Act) : Swept P s₀ (s.act a) := by
  cases a with
  | due k ms thrown => exact h.set k _ thrown
  | recover k at' thrown =>
    simp only [Scheduler.act, recover]
    split
    · split
      · exact h
      · exact h.set k at' thrown
    · exact h.set k at' thrown
  | clear k =>
    refine ⟨h.walking, h.armed, h.same, h.owed, fun k' d hk hp => h.due k' d ?_ hp⟩
    simp only [Scheduler.act, OrdMap.get_delete] at hk
    split at hk
    · cases hk
    · exact hk
  | postpone k at' =>
    simp only [Scheduler.act, Scheduler.postpone]
    split
    · exact h
    · rename_i r hr
      split
      · rename_i hle
        refine ⟨h.walking, h.armed, h.same, h.owed, fun k' d hk hp => ?_⟩
        simp only [OrdMap.get_set] at hk
        split at hk
        · rename_i he
          subst he
          rw [← Option.some.inj hk]
          exact (h.due k' r hr hp).trans (WithTop.coe_le_coe.2 hle)
        · exact h.due k' d hk hp
      · exact h
  | callRetried refused thrown => exact h.callRetried refused thrown

theorem Swept.perform (h : Swept P s₀ s) (acts : List Act) : Swept P s₀ (s.perform acts) := by
  induction acts generalizing s with
  | nil => exact h
  | cons a acts ih => exact ih (h.act a)

theorem soonest_le (s : Scheduler) {k : Timer} {d : ℚ} (hk : s.due.get k = some d) : s.soonest k.1 ≤ d := by
  have hmem : (k, d) ∈ s.due.entries.filter fun e => e.1.1 = k.1 := by
    simpa using (OrdMap.get_eq_some s.due k d).1 hk
  unfold soonest
  generalize s.due.entries.filter (fun e => decide (e.1.1 = k.1)) = es at hmem
  induction es with
  | nil => simp at hmem
  | cons e es ih =>
    rcases List.mem_cons.1 hmem with rfl | hmem
    · exact min_le_left _ _
    · exact (min_le_right _ _).trans (ih hmem)

/-- A holder's turn. -/
theorem Swept.visit (h : Swept P s₀ s) (x : Holder) :
    Swept (fun y => P y ∨ y = x) s₀ (s.wakeBy (s.soonest x) false) := by
  have hw := h.wakeBy (s.soonest x) false
  refine ⟨hw.walking, hw.armed, hw.same, hw.owed, fun k d hk hp => ?_⟩
  rcases hp with hp | rfl
  · exact hw.due k d hk hp
  · exact (wakeBy_le h _ false).trans (soonest_le s (by simpa using hk))

theorem Swept.walkLoop {hs : List Holder} {visits : List (List Act)} {throws : Option Nat}
    (h : Swept P s₀ s) (hok : (walkLoop hs visits throws s).1 = true) :
    Swept (fun y => P y ∨ y ∈ hs) s₀ (walkLoop hs visits throws s).2 := by
  induction hs generalizing P s visits throws with
  | nil => exact ⟨h.walking, h.armed, h.same, h.owed, fun k d hk hp => h.due k d hk (by simpa using hp)⟩
  | cons x hs ih =>
    simp only [Scheduler.walkLoop] at hok ⊢
    split at hok
    · simp at hok
    · have hrest := ih ((h.perform (visits.headD [])).visit x) hok
      exact ⟨hrest.walking, hrest.armed, hrest.same, hrest.owed, fun k d hk hp =>
        hrest.due k d hk (by simpa [or_assoc] using hp)⟩

theorem Swept.retried (h : Swept P s₀ s) (retried : List Bool) :
    Swept P s₀ (retried.foldl (fun s refused => s.callRetried refused false) s) := by
  induction retried generalizing s with
  | nil => exact h
  | cons r rs ih => exact ih (h.callRetried r false)

/-- A walk that does not throw sees every deadline. -/
theorem swept_walk {w : Walk} (hok : (s.walk w).1 = true) : Swept (fun _ => True) s (s.walk w).2 := by
  unfold walk at hok ⊢
  simp only at hok ⊢
  have hstart : Swept (fun _ => False) s { s with wakeAt := ⊤, walking := true, armed := ⊤, owed := [] } :=
    ⟨rfl, rfl, ⟨rfl, rfl, rfl⟩, fun d hd => by simp at hd, fun k d _ hp => hp.elim⟩
  have hretried := hstart.retried w.retried
  generalize w.retried.foldl (fun s refused => s.callRetried refused false)
    { s with wakeAt := ⊤, walking := true, armed := ⊤, owed := [] } = t at hok hretried ⊢
  -- a holder the order leaves out has no timer to start with
  have hout : Swept (fun y => y ∉ t.order w.more) s t := by
    refine ⟨hretried.walking, hretried.armed, hretried.same, hretried.owed, fun k d hk hp => absurd ?_ hp⟩
    have hkey : k ∈ t.due.keys := (OrdMap.mem_keys t.due k).2 (by simp [hk])
    unfold order
    exact List.mem_append_left _ (List.mem_append_right _ (List.mem_map_of_mem hkey))
  have hall := hout.walkLoop hok
  exact ⟨hall.walking, hall.armed, hall.same, hall.owed, fun k d hk _ => hall.due k d hk (em' _)⟩

theorem Kept.onWake {H : ℚ → Prop} (h : Kept H s) {w : Walk} (hok : (s.walk w).1 = true) :
    Kept (Held (s.onWake w)) (s.onWake w) := by
  have hswept := swept_walk hok
  unfold Scheduler.onWake
  generalize s.walk w = r at hok hswept
  obtain ⟨b, t⟩ := r
  obtain rfl : b = true := hok
  simp only at hswept ⊢
  have hheld : ∀ d, Held t d → t.wakeAt ≤ d := by
    rintro d (hd | ⟨k, hk⟩)
    · exact hswept.owed d hd
    · exact hswept.due k d hk trivial
  have hasks : ∀ g a, (g, a) ∈ t.asks → g ≤ t.armGen ∧ (g = t.armGen → t.owedAt = ⊤) := by
    rw [hswept.same.1, hswept.same.2.1, hswept.same.2.2]
    exact fun g a hb => ⟨(h.asks g a hb).1, fun he => ((h.asks g a hb).2 he).1⟩
  split
  · rename_i hnone
    have hnone : t.wakeAt = ⊤ := hnone
    refine ⟨rfl, ?_, fun hn => absurd hnone hn, fun g a hb => ?_, fun d hd => .inl (hheld d hd)⟩
    · exact hswept.armed.trans hnone.symm
    · exact ⟨(hasks g a hb).1, fun he => ⟨(hasks g a hb).2 he, .inr hnone⟩⟩
  · rename_i a ha
    have ha : t.wakeAt = (a : Due) := ha
    have hk : Kept (Held t) ({ t with walking := false }.arm a w.thrown) := by
      refine Kept.arm (s := { t with walking := false }) rfl (fun g b hb => (hasks g b hb).1) ha (fun d hd => ?_) w.thrown
      have := hheld d hd
      rw [ha] at this
      exact WithTop.coe_le_coe.1 this
    refine hk.mono fun d hd => ?_
    obtain ⟨_, _, _, _, _, he⟩ := arm_same a w.thrown { t with walking := false }
    rw [he] at hd
    exact hd

end Walk

/-! ### Every run -/

/-- An event in which no deadline is registered over an earlier one that is owed, and no walk
throws. -/
def HeedsEvent (s : Scheduler) : Event → Prop
  | .turn thrown acts => HeedsAll (s.handle thrown) acts
  | .resume acts => HeedsAll s acts
  | .wake thrown w => ((s.handle thrown).walk w).1 = true
  | _ => True

def Heedful : Scheduler → List Event → Prop
  | _, [] => True
  | s, e :: evs => HeedsEvent s e ∧ Heedful (s.step e) evs

theorem held_handle {s : Scheduler} {thrown : Bool} {d : ℚ} : Held (s.handle thrown) d ↔ Held s d :=
  held_congr (wakeBy_due _ thrown s) (wakeBy_owed _ thrown s)

theorem answer_same (gen : Nat) (ok : Bool) (s : Scheduler) :
    (s.answer gen ok).due = s.due ∧ (s.answer gen ok).owed = s.owed := by
  unfold answer refused
  split
  · exact ⟨rfl, rfl⟩
  · simp only
    split
    · exact ⟨rfl, rfl⟩
    · split <;> exact ⟨rfl, rfl⟩

theorem Kept.step {s : Scheduler} (h : Kept (Held s) s) {e : Event} (he : HeedsEvent s e) :
    Kept (Held (s.step e)) (s.step e) := by
  have hhandle : ∀ thrown, Kept (Held (s.handle thrown)) (s.handle thrown) := fun thrown =>
    (h.handle thrown).mono fun d hd => held_handle.1 hd
  cases e with
  | turn thrown acts => exact (hhandle thrown).perform he
  | resume acts => exact h.perform he
  | wake thrown w => exact (hhandle thrown).onWake he
  | answer gen ok =>
    obtain ⟨hdue, howed⟩ := answer_same gen ok s
    exact (h.answer gen ok).mono fun d hd => (held_congr hdue howed).1 hd
  | elapse ms => exact ⟨h.calm, h.armed, h.single, h.asks, h.covered⟩

theorem kept_create : Kept (Held create) create := by
  refine ⟨rfl, rfl, fun hn => absurd rfl hn, fun g a hb => by simp [create] at hb, ?_⟩
  rintro d (hd | ⟨k, hk⟩)
  · simp [create] at hd
  · simp [create] at hk

theorem Kept.run {s : Scheduler} (h : Kept (Held s) s) {evs : List Event} (hevs : Heedful s evs) :
    Kept (Held (s.run evs)) (s.run evs) := by
  induction evs generalizing s with
  | nil => exact h
  | cons e evs ih => exact ih (h.step hevs.1) hevs.2

/-- In a run whose turns register no deadline over an earlier one that is owed, and whose walks
do not throw, every deadline that is held is covered: a wake for it is asked for, or the next
event asks; and a time `wakeAt` gives is one that is asked for. -/
theorem deadlines_covered (evs : List Event) (h : Heedful create evs) :
    (∀ d, Held (create.run evs) d → Covered (create.run evs) d) ∧
      (create.run evs).armed = (create.run evs).wakeAt := by
  have hk := kept_create.run h
  refine ⟨fun d hd => ?_, hk.armed⟩
  unfold Covered
  rw [hk.armed]
  exact hk.covered d hd

/-- A request whose arm is refused and asked again, one that is put off, and the wake for them. -/
def busyTurns : List Event :=
  [.turn false [.due (.reqres, 0) 100 true], .turn false [.due (.link 1, 0) 10 false], .answer 2 false,
    .elapse 50, .wake false ⟨[], [[], [], [], [], [.postpone (.link 1, 0) 60]], [], none, false⟩]

theorem deadlines_covered_busy :
    (∀ d, Held (create.run busyTurns) d → Covered (create.run busyTurns) d) ∧
      (create.run busyTurns).armed = (create.run busyTurns).wakeAt := by
  refine deadlines_covered busyTurns ⟨⟨.inl ?_, trivial⟩, ⟨.inl ?_, trivial⟩, trivial, trivial, ?_, trivial⟩
  · decide +kernel
  · decide +kernel
  · unfold HeedsEvent
    decide +kernel

/-- A request's arm is refused, and in the same turn a later deadline is armed: the request's
is covered by nothing. -/
def overtaken : List Event := [.turn false [.due (.reqres, 0) 100 true, .due (.link 1, 0) 10000 false]]

theorem overtaken_uncovered : Held (create.run overtaken) 100 ∧ ¬Covered (create.run overtaken) 100 := by
  refine ⟨.inr ⟨(.reqres, 0), ?_⟩, ?_⟩
  · decide +kernel
  · unfold Covered
    decide +kernel

/-- A walk that throws leaves a time in `wakeAt` that nothing was asked for. -/
theorem thrown_walk_unarmed :
    (create.run [.turn false [.callRetried true false], .elapse 100,
      .wake false ⟨[true], [], [], some 0, false⟩]).wakeAt = ((200 : ℚ) : Due) ∧
    (create.run [.turn false [.callRetried true false], .elapse 100,
      .wake false ⟨[true], [], [], some 0, false⟩]).armed = ⊤ := by
  decide +kernel

end Scheduler

end SeedTransport
