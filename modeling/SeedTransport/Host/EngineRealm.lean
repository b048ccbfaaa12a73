import SeedTransport.Host.RealmQueue

set_option autoImplicit false

namespace SeedTransport

/-! Invocations of a realm on an engine (`engine-realm.ts`), and the host calls they wait for
(`settleByDeadline`). An entry is one call of an `R_` export: while it runs the guest may
report and call the host, and the host may dispose of the realm or cancel an invocation; an
answer that was waited for enters on a turn of its own. -/

/-- `InvocationBudget`; `invocation` is the one its `reject` fails, `none` in a duration is
`Infinity`. -/
structure BudgetRecord where
  budgetMs : Option ℚ
  wallDeadline : Option ℚ
  consumedMs : ℚ
  invocation : Option Nat
  deriving DecidableEq

/-- How an answer came to its caller. -/
inductive CallOutcome where
  | done
  | reported
  | cancelled
  | cut
  | disposed
  deriving DecidableEq

inductive EntryKind where
  | eval
  | invoke (id : Nat)
  /-- The resumption of a host call made under record `made`. -/
  | settle (made : Nat)
  deriving DecidableEq

/-- The export that runs, and the record it runs under. -/
structure EngineEntry where
  under : Nat
  start : ℚ
  kind : EntryKind
  deriving DecidableEq

/-- A parked host call: `timed` is in the deadline queue, `expiring` has its microtask
queued. -/
structure ParkedCall where
  made : Nat
  detached : Bool
  timed : Bool
  expiring : Bool
  deriving DecidableEq

/-- What an entry was granted; `none` is no deadline. `paid` is how much of the realm's
spending came before it. -/
structure Grant where
  under : Nat
  at' : ℚ
  paid : Nat
  ns : Option ℤ
  deriving DecidableEq

/-- The last three are for an observer: the answers given, what was consumed under which
record, and what entries were granted. -/
structure EngineRealm where
  configuredMs : Option ℚ
  now : ℚ
  alive : Bool
  invocations : List Nat
  invocationSeq : Nat
  records : Nat → BudgetRecord
  made : Nat
  active : Nat
  entry : Option EngineEntry
  parked : Nat → Option ParkedCall
  parkSeq : Nat
  settled : List (Nat × CallOutcome)
  spent : List (Nat × ℚ)
  grants : List Grant

namespace EngineRealm

/-! ### Records -/

/-- `Math.min`, with `none` for `Infinity`. -/
def minMs : Option ℚ → Option ℚ → Option ℚ
  | none, b => b
  | a, none => a
  | some a, some b => some (min a b)

/-- `create`; the deadline of a record is checked. -/
def create (deadlineMs : Ms) (invocation : Option Nat) (q : EngineRealm) : Option BudgetRecord :=
  match deadlineMs with
  | .nan => none
  | .inf => some ⟨q.configuredMs, none, 0, invocation⟩
  | .fin ms =>
    if ms < 0 then none
    else some ⟨minMs q.configuredMs (some ms), some (q.now + ms), 0, invocation⟩

/-- `create()`, whose deadline is the realm's own. -/
def createDefault (q : EngineRealm) : BudgetRecord :=
  ⟨q.configuredMs, q.configuredMs.map (q.now + ·), 0, none⟩

/-- A record is made. -/
def addRecord (r : BudgetRecord) (q : EngineRealm) : EngineRealm :=
  { q with
    records := Function.update q.records q.made r
    made := q.made + 1 }

/-- Time is consumed under a record, in an entry or as a charge. -/
def consume (i : Nat) (ms : ℚ) (q : EngineRealm) : EngineRealm :=
  { q with
    records := Function.update q.records i
      { q.records i with consumedMs := (q.records i).consumedMs + ms }
    spent := q.spent ++ [(i, ms)] }

/-! ### Invocations -/

/-- `takeInvocation`, and its answer. -/
def answer (id : Nat) (how : CallOutcome) (q : EngineRealm) : EngineRealm :=
  if id ∈ q.invocations then
    { q with
      invocations := q.invocations.erase id
      settled := q.settled ++ [(id, how)] }
  else q

/-- Every open invocation is rejected. -/
def rejectAll (how : CallOutcome) (q : EngineRealm) : EngineRealm :=
  { q with
    invocations := []
    settled := q.settled ++ q.invocations.map fun id => (id, how) }

def discard (q : EngineRealm) : EngineRealm :=
  if q.alive then { q.rejectAll .disposed with alive := false } else q

/-! ### Entries -/

/-- What is left to a record: of its budget, and to its wall deadline. -/
def left (r : BudgetRecord) (now : ℚ) : Option ℚ :=
  minMs (r.budgetMs.map (· - r.consumedMs)) (r.wallDeadline.map (· - now))

/-- The engine's deadline, a nanosecond at least; `none` is none. -/
def deadlineNs (left : Option ℚ) : Option ℤ := left.map fun ms => max 1 ⌊ms * 1000000⌋

def enter (under : Nat) (kind : EntryKind) (q : EngineRealm) : EngineRealm :=
  { q with
    active := under
    entry := some ⟨under, q.now, kind⟩
    grants := q.grants ++
      [⟨under, q.now, q.spent.length, deadlineNs (left (q.records under) q.now)⟩] }

/-- The open invocation that a record's `reject` fails. -/
def openOf (i : Nat) (q : EngineRealm) : Option Nat :=
  match (q.records i).invocation with
  | some id => if id ∈ q.invocations then some id else none
  | none => none

/-- An entry ended by an error. -/
def cutShort (under : Nat) (kind : EntryKind) (q : EngineRealm) : EngineRealm :=
  match kind with
  | .eval => q.discard
  | .invoke id => q.answer id .cut
  | .settle _ =>
    match q.openOf under with
    | some id => q.answer id .cut
    | none => q.rejectAll .cut

/-- How bytes are staged for an entry: in place, not for lack of memory, or with a trap. -/
inductive Staged where
  | ok
  | outOfMemory
  | trap
  deriving DecidableEq

/-- Stage and enter. A trap takes the realm with it. -/
def stageEnter (under : Nat) (kind : EntryKind) (staged : Staged) (q : EngineRealm) : EngineRealm :=
  match staged with
  | .ok => q.enter under kind
  | .outOfMemory => q.cutShort under kind
  | .trap => q.discard.cutShort under kind

/-- How an entry ends. -/
inductive Exit where
  | ok
  | interrupted
  | failed
  | trap
  deriving DecidableEq

def leave (e : EngineEntry) (how : Exit) (q : EngineRealm) : EngineRealm :=
  let q := if how = .trap then q.discard else q
  let q := { q.consume e.under (q.now - e.start) with entry := none }
  if how = .ok then q else q.cutShort e.under e.kind

def invoke (deadlineMs : Ms) (staged : Staged) (q : EngineRealm) : EngineRealm :=
  let id := q.invocationSeq + 1
  match q.create deadlineMs (some id) with
  | none => q
  | some r =>
    let under := q.made
    { q.addRecord r with
      invocationSeq := id
      invocations := q.invocations ++ [id] }.stageEnter under (.invoke id) staged

/-- `settle`: on the record the call was made under, or on a fresh one for a detached call. -/
def settle (c : ParkedCall) (staged : Staged) (q : EngineRealm) : EngineRealm :=
  if q.alive = false then q
  else if c.detached then
    (q.addRecord q.createDefault).stageEnter q.made (.settle c.made) staged
  else q.stageEnter c.made (.settle c.made) staged

/-! ### Steps -/

inductive Event where
  | elapse (ms : ℚ)
  | invoke (deadlineMs : Ms) (staged : Staged)
  | leave (how : Exit)
  | callDone (id : Nat)
  | callFail (id : Nat)
  | cancel (id : Nat)
  | dispose
  /-- A host call is parked, under the record that runs. -/
  | park (detached timed : Bool)
  | charge (i : Nat) (ms : ℚ)
  | answered (call : Nat) (staged : Staged)
  | expired (call : Nat)
  /-- The microtask of an expired call. -/
  | late (call : Nat) (staged : Staged)

def step (q : EngineRealm) : Event → EngineRealm
  | .elapse ms => { q with now := q.now + max ms 0 }
  | .invoke deadlineMs staged =>
    if q.entry = none ∧ q.alive = true then q.invoke deadlineMs staged else q
  | .leave how =>
    match q.entry with
    | none => q
    | some e => q.leave e how
  | .callDone id => if q.entry = none then q else q.answer id .done
  | .callFail id => if q.entry = none then q else q.answer id .reported
  | .cancel id => q.answer id .cancelled
  | .dispose => q.discard
  | .park detached timed =>
    if q.entry = none then q
    else
      { q with
        parked := Function.update q.parked q.parkSeq (some ⟨q.active, detached, timed, false⟩)
        parkSeq := q.parkSeq + 1 }
  | .charge i ms => if 0 < ms ∧ i < q.made then q.consume i ms else q
  | .answered call staged =>
    match q.entry, q.parked call with
    | none, some c =>
      if c.expiring then q
      else { q with parked := Function.update q.parked call none }.settle c staged
    | _, _ => q
  | .expired call =>
    match q.parked call with
    | some c =>
      if c.timed then
        { q with parked := Function.update q.parked call (some { c with expiring := true }) }
      else q
    | none => q
  | .late call staged =>
    match q.entry, q.parked call with
    | none, some c =>
      if c.expiring then { q with parked := Function.update q.parked call none }.settle c staged else q
    | _, _ => q

def run (q : EngineRealm) (es : List Event) : EngineRealm := es.foldl step q

/-- A realm whose guest's top level is about to run. -/
def start (configuredMs : Option ℚ) : EngineRealm :=
  enter 0 .eval
    { configuredMs
      now := 0
      alive := true
      invocations := []
      invocationSeq := 0
      records := fun _ => ⟨configuredMs, configuredMs.map (0 + ·), 0, none⟩
      made := 1
      active := 0
      entry := none
      parked := fun _ => none
      parkSeq := 0
      settled := []
      spent := []
      grants := [] }

/-! ### Answers -/

/-- Every invocation was answered once or is open, and a realm that is gone has none open. -/
structure Answers (q : EngineRealm) : Prop where
  custody : (q.settled.map Prod.fst ++ q.invocations).Perm (List.range' 1 q.invocationSeq)
  gone : q.alive = false → q.invocations = []

section Answers

variable {q q' : EngineRealm}

theorem Answers.nodup (h : q.Answers) : (q.settled.map Prod.fst ++ q.invocations).Nodup :=
  h.custody.nodup_iff.2 (List.nodup_range' 1 Nat.one_pos)

theorem Answers.congr (h : q.Answers) (h1 : q'.settled = q.settled) (h2 : q'.invocations = q.invocations)
    (h3 : q'.invocationSeq = q.invocationSeq) (h4 : q'.alive = q.alive) : q'.Answers := by
  refine ⟨?_, ?_⟩
  · rw [h1, h2, h3]
    exact h.custody
  · rw [h2, h4]
    exact h.gone

theorem Answers.answer (h : q.Answers) (id : Nat) (how : CallOutcome) : (q.answer id how).Answers := by
  unfold EngineRealm.answer
  split
  · rename_i hin
    refine ⟨?_, fun ha => ?_⟩
    · refine List.Perm.trans ?_ h.custody
      simp only [List.map_append, List.map_cons, List.map_nil, List.append_assoc]
      exact List.Perm.append_left _ (List.perm_cons_erase hin).symm
    · have := h.gone ha
      rw [this] at hin
      cases hin
  · exact h

theorem Answers.rejectAll (h : q.Answers) (how : CallOutcome) : (q.rejectAll how).Answers := by
  refine ⟨?_, fun _ => rfl⟩
  have hmap : (q.invocations.map fun id => (id, how)).map Prod.fst = q.invocations := by
    rw [List.map_map]
    exact List.map_id' _
  simp only [EngineRealm.rejectAll, List.map_append, hmap, List.append_nil]
  exact h.custody

theorem Answers.discard (h : q.Answers) : q.discard.Answers := by
  unfold EngineRealm.discard
  split
  · exact ⟨(h.rejectAll .disposed).custody, fun _ => rfl⟩
  · exact h

theorem Answers.cutShort (h : q.Answers) (under : Nat) (kind : EntryKind) :
    (q.cutShort under kind).Answers := by
  unfold EngineRealm.cutShort
  split
  · exact h.discard
  · exact h.answer _ _
  · split
    · exact h.answer _ _
    · exact h.rejectAll _

theorem Answers.stageEnter (h : q.Answers) (under : Nat) (kind : EntryKind) (staged : Staged) :
    (q.stageEnter under kind staged).Answers := by
  unfold EngineRealm.stageEnter
  split
  · exact h.congr rfl rfl rfl rfl
  · exact h.cutShort under kind
  · exact h.discard.cutShort under kind

/-- An invocation is opened. -/
theorem Answers.opened (h : q.Answers) (ha : q.alive = true) (r : BudgetRecord) :
    Answers { q.addRecord r with
      invocationSeq := q.invocationSeq + 1
      invocations := q.invocations ++ [q.invocationSeq + 1] } := by
  refine ⟨?_, fun hf => by cases ha.symm.trans hf⟩
  have hrange : List.range' 1 (q.invocationSeq + 1) =
      List.range' 1 q.invocationSeq ++ [q.invocationSeq + 1] := by
    rw [List.range'_1_concat, Nat.add_comm 1]
  simp only [hrange, ← List.append_assoc]
  exact h.custody.append_right _

end Answers

/-! ### Budgets -/

/-- What was consumed under a record. -/
def total (i : Nat) (spent : List (Nat × ℚ)) : ℚ := ((spent.filter (·.1 = i)).map Prod.snd).sum

theorem total_append (i : Nat) (a b : List (Nat × ℚ)) : total i (a ++ b) = total i a + total i b := by
  simp [total]

theorem total_singleton (i j : Nat) (ms : ℚ) : total i [(j, ms)] = if j = i then ms else 0 := by
  by_cases h : j = i <;> simp [total, h]

/-- A grant is within what the record had left, of its budget and to its wall deadline, or is
a nanosecond; a grant without a deadline is of a record that has none. -/
def Within (spent : List (Nat × ℚ)) (r : BudgetRecord) (g : Grant) : Prop :=
  match g.ns with
  | none => r.budgetMs = none ∧ r.wallDeadline = none
  | some ns => ns = 1 ∨
    ((∀ b, r.budgetMs = some b → (ns : ℚ) ≤ (b - total g.under (spent.take g.paid)) * 1000000) ∧
      ∀ w, r.wallDeadline = some w → (ns : ℚ) ≤ (w - g.at') * 1000000)

/-- The records' books: what each consumed, and what was granted under it. -/
structure Books (q : EngineRealm) : Prop where
  consumed : ∀ i, i < q.made → (q.records i).consumedMs = total i q.spent
  spent : ∀ p ∈ q.spent, p.1 < q.made
  active : q.active < q.made
  entry : ∀ e, q.entry = some e → e.under < q.made
  /-- A resumption runs on the record of its call, or on one that fails no invocation. -/
  resumes : ∀ e m, q.entry = some e → e.kind = .settle m →
    e.under = m ∨ (q.records e.under).invocation = none
  parked : ∀ n c, q.parked n = some c → c.made < q.made
  paid : ∀ g ∈ q.grants, g.under < q.made ∧ g.paid ≤ q.spent.length
  granted : ∀ g ∈ q.grants, Within q.spent (q.records g.under) g

section Books

variable {q q' : EngineRealm}

theorem left_budget {r : BudgetRecord} {now ms b : ℚ} (h : left r now = some ms)
    (hb : r.budgetMs = some b) : ms ≤ b - r.consumedMs := by
  unfold left at h
  rw [hb] at h
  cases hw : r.wallDeadline with
  | none =>
    rw [hw] at h
    exact le_of_eq (Option.some.inj h).symm
  | some w =>
    rw [hw] at h
    have := Option.some.inj h
    rw [← this]
    exact min_le_left _ _

theorem left_wall {r : BudgetRecord} {now ms w : ℚ} (h : left r now = some ms)
    (hw : r.wallDeadline = some w) : ms ≤ w - now := by
  unfold left at h
  rw [hw] at h
  cases hb : r.budgetMs with
  | none =>
    rw [hb] at h
    exact le_of_eq (Option.some.inj h).symm
  | some b =>
    rw [hb] at h
    have := Option.some.inj h
    rw [← this]
    exact min_le_right _ _

theorem left_none {r : BudgetRecord} {now : ℚ} (h : left r now = none) :
    r.budgetMs = none ∧ r.wallDeadline = none := by
  unfold left at h
  cases hb : r.budgetMs with
  | none =>
    cases hw : r.wallDeadline with
    | none => exact ⟨rfl, rfl⟩
    | some w =>
      rw [hb, hw] at h
      cases h
  | some b =>
    cases hw : r.wallDeadline with
    | none =>
      rw [hb, hw] at h
      cases h
    | some w =>
      rw [hb, hw] at h
      cases h

/-- What an entry is granted is within what its record has left. -/
theorem within_enter {spent : List (Nat × ℚ)} {r : BudgetRecord} {under : Nat} {now : ℚ}
    (hc : r.consumedMs = total under spent) :
    Within spent r ⟨under, now, spent.length, deadlineNs (left r now)⟩ := by
  unfold Within
  cases hl : left r now with
  | none => exact left_none hl
  | some ms =>
    simp only [deadlineNs, Option.map_some, List.take_length]
    by_cases h1 : ⌊ms * 1000000⌋ ≤ 1
    · exact Or.inl (max_eq_left h1)
    · right
      rw [max_eq_right (by omega)]
      have hfloor : ((⌊ms * 1000000⌋ : ℤ) : ℚ) ≤ ms * 1000000 := Int.floor_le _
      refine ⟨fun b hb => ?_, fun w hw => ?_⟩
      · have := left_budget hl hb
        rw [hc] at this
        linarith
      · have := left_wall hl hw
        linarith

theorem Within.append {spent : List (Nat × ℚ)} {r r' : BudgetRecord} {g : Grant}
    (h : Within spent r g) (hb : r'.budgetMs = r.budgetMs) (hw : r'.wallDeadline = r.wallDeadline)
    (hp : g.paid ≤ spent.length) (more : List (Nat × ℚ)) : Within (spent ++ more) r' g := by
  unfold Within at h ⊢
  rw [List.take_append_of_le_length hp, hb, hw]
  exact h

theorem Books.congr (h : q.Books) (h1 : q'.records = q.records) (h2 : q'.made = q.made)
    (h3 : q'.spent = q.spent) (h4 : q'.grants = q.grants) (h5 : q'.active = q.active)
    (h6 : q'.entry = q.entry ∨ q'.entry = none)
    (h7 : ∀ n c, q'.parked n = some c → c.made < q'.made) : q'.Books := by
  refine ⟨?_, ?_, ?_, fun e he => ?_, fun e m he => ?_, h7, ?_, ?_⟩
  · rw [h1, h2, h3]
    exact h.consumed
  · rw [h2, h3]
    exact h.spent
  · rw [h2, h5]
    exact h.active
  · rcases h6 with h6 | h6
    · rw [h6] at he
      rw [h2]
      exact h.entry e he
    · rw [h6] at he
      cases he
  · rcases h6 with h6 | h6
    · rw [h6] at he
      rw [h1]
      exact h.resumes e m he
    · rw [h6] at he
      cases he
  · rw [h2, h3, h4]
    exact h.paid
  · rw [h1, h3, h4]
    exact h.granted

/-- Answers leave the books alone. -/
theorem Books.answer (h : q.Books) (id : Nat) (how : CallOutcome) : (q.answer id how).Books := by
  unfold EngineRealm.answer
  split
  · exact h.congr rfl rfl rfl rfl rfl (Or.inl rfl) h.parked
  · exact h

theorem Books.discard (h : q.Books) : q.discard.Books := by
  unfold EngineRealm.discard
  split
  · exact h.congr rfl rfl rfl rfl rfl (Or.inl rfl) h.parked
  · exact h

theorem Books.cutShort (h : q.Books) (under : Nat) (kind : EntryKind) :
    (q.cutShort under kind).Books := by
  unfold EngineRealm.cutShort
  split
  · exact h.discard
  · exact h.answer _ _
  · split
    · exact h.answer _ _
    · exact h.congr rfl rfl rfl rfl rfl (Or.inl rfl) h.parked

theorem Books.enter (h : q.Books) {under : Nat} (hu : under < q.made) {kind : EntryKind}
    (hk : ∀ m, kind = .settle m → under = m ∨ (q.records under).invocation = none) :
    (q.enter under kind).Books := by
  refine ⟨h.consumed, h.spent, hu, fun e he => ?_, fun e m he => ?_, h.parked, fun g hg => ?_,
    fun g hg => ?_⟩
  · obtain rfl := Option.some.inj he
    exact hu
  · obtain rfl := Option.some.inj he
    exact hk m
  · rcases List.mem_append.1 hg with hg | hg
    · exact h.paid g hg
    · obtain rfl := List.mem_singleton.1 hg
      exact ⟨hu, le_refl _⟩
  · rcases List.mem_append.1 hg with hg | hg
    · exact h.granted g hg
    · obtain rfl := List.mem_singleton.1 hg
      exact within_enter (h.consumed under hu)

theorem Books.stageEnter (h : q.Books) {under : Nat} (hu : under < q.made) {kind : EntryKind}
    (hk : ∀ m, kind = .settle m → under = m ∨ (q.records under).invocation = none)
    (staged : Staged) : (q.stageEnter under kind staged).Books := by
  unfold EngineRealm.stageEnter
  split
  · exact h.enter hu hk
  · exact h.cutShort under kind
  · exact h.discard.cutShort under kind

theorem Books.consume (h : q.Books) {i : Nat} (hi : i < q.made) (ms : ℚ) : (q.consume i ms).Books := by
  have hrec : ∀ j, (Function.update q.records i
      { q.records i with consumedMs := (q.records i).consumedMs + ms } j).budgetMs = (q.records j).budgetMs ∧
      (Function.update q.records i
        { q.records i with consumedMs := (q.records i).consumedMs + ms } j).wallDeadline =
        (q.records j).wallDeadline ∧
      (Function.update q.records i
        { q.records i with consumedMs := (q.records i).consumedMs + ms } j).invocation =
        (q.records j).invocation := by
    intro j
    by_cases hj : j = i
    · subst hj
      simp
    · simp [hj]
  refine ⟨fun j hj => ?_, fun p hp => ?_, h.active, h.entry, fun e m he hk => ?_, h.parked,
    fun g hg => ?_, fun g hg => ?_⟩
  · simp only [EngineRealm.consume, total_append, total_singleton]
    by_cases hji : j = i
    · subst hji
      simp [h.consumed j hj]
    · have hij : ¬ i = j := fun heq => hji heq.symm
      simp only [Function.update_of_ne hji, if_neg hij, add_zero]
      exact h.consumed j hj
  · rcases List.mem_append.1 hp with hp | hp
    · exact h.spent p hp
    · exact List.mem_singleton.1 hp ▸ hi
  · exact (h.resumes e m he hk).imp_right (hrec e.under).2.2.trans
  · obtain ⟨h1, h2⟩ := h.paid g hg
    refine ⟨h1, ?_⟩
    simp only [EngineRealm.consume, List.length_append]
    omega
  · exact (h.granted g hg).append (hrec g.under).1 (hrec g.under).2.1 (h.paid g hg).2 _

theorem Books.addRecord (h : q.Books) {r : BudgetRecord} (hr : r.consumedMs = 0) :
    (q.addRecord r).Books := by
  have hold : ∀ j, j < q.made → (q.addRecord r).records j = q.records j := by
    intro j hj
    exact Function.update_of_ne (Nat.ne_of_lt hj) _ _
  refine ⟨fun j hj => ?_, fun p hp => Nat.lt_succ_of_lt (h.spent p hp), Nat.lt_succ_of_lt h.active,
    fun e he => Nat.lt_succ_of_lt (h.entry e he), fun e m he hk => ?_, fun n c hc => Nat.lt_succ_of_lt (h.parked n c hc),
    fun g hg => ⟨Nat.lt_succ_of_lt (h.paid g hg).1, (h.paid g hg).2⟩, fun g hg => ?_⟩
  · have hj' : j < q.made + 1 := hj
    by_cases hjm : j = q.made
    · -- nothing was consumed under a record that did not exist
      subst hjm
      have hnone : q.spent.filter (·.1 = q.made) = [] := by
        rw [List.filter_eq_nil_iff]
        intro p hp
        have := h.spent p hp
        simp
        omega
      simp [EngineRealm.addRecord, hr, total, hnone]
    · rw [hold j (by omega)]
      exact h.consumed j (by omega)
  · rw [hold e.under (h.entry e he)]
    exact h.resumes e m he hk
  · rw [hold g.under (h.paid g hg).1]
    exact h.granted g hg

end Books

/-! ### Steps and runs -/

/-- What holds of a realm between two steps. -/
structure Kept (q : EngineRealm) : Prop where
  answers : q.Answers
  books : q.Books

section Steps

variable {q : EngineRealm}

theorem kept_start (configuredMs : Option ℚ) : (start configuredMs).Kept := by
  refine ⟨⟨List.Perm.refl _, fun h => by cases h⟩, ?_⟩
  refine Books.enter ⟨fun i hi => ?_, by simp, Nat.zero_lt_one, by simp, by simp, by simp, by simp,
    by simp⟩ Nat.zero_lt_one (fun m hm => by cases hm)
  rfl

theorem createDefault_consumed : q.createDefault.consumedMs = 0 ∧ q.createDefault.invocation = none :=
  ⟨rfl, rfl⟩

theorem create_consumed {d : Ms} {o : Option Nat} {r : BudgetRecord} (h : q.create d o = some r) :
    r.consumedMs = 0 := by
  unfold create at h
  split at h
  · cases h
  · obtain rfl := Option.some.inj h
    rfl
  · split at h
    · cases h
    · obtain rfl := Option.some.inj h
      rfl

theorem Kept.invoke (h : q.Kept) (ha : q.alive = true) (d : Ms) (staged : Staged) :
    (q.invoke d staged).Kept := by
  unfold EngineRealm.invoke
  simp only
  split
  · exact h
  · rename_i r hr
    have hb := h.books.addRecord (create_consumed hr)
    have hb' : Books { q.addRecord r with
        invocationSeq := q.invocationSeq + 1
        invocations := q.invocations ++ [q.invocationSeq + 1] } :=
      hb.congr rfl rfl rfl rfl rfl (Or.inl rfl) hb.parked
    refine ⟨(h.answers.opened ha r).stageEnter _ _ _, ?_⟩
    exact hb'.stageEnter (Nat.lt_succ_self _) (fun m hm => by cases hm) staged

theorem Kept.settle (h : q.Kept) {c : ParkedCall} (hc : c.made < q.made) (staged : Staged) :
    (q.settle c staged).Kept := by
  unfold EngineRealm.settle
  split
  · exact h
  · split
    · have hb := h.books.addRecord (createDefault_consumed (q := q)).1
      have ha : (q.addRecord q.createDefault).Answers := h.answers.congr rfl rfl rfl rfl
      refine ⟨ha.stageEnter _ _ _, ?_⟩
      refine hb.stageEnter (Nat.lt_succ_self _) (fun m _ => Or.inr ?_) staged
      simp [addRecord, createDefault]
    · refine ⟨h.answers.stageEnter _ _ _, h.books.stageEnter hc (fun m hm => Or.inl ?_) staged⟩
      exact EntryKind.settle.inj hm

theorem Kept.leave (h : q.Kept) {e : EngineEntry} (he : q.entry = some e) (how : Exit) :
    (q.leave e how).Kept := by
  have hq : ∀ q' : EngineRealm, q'.Kept → e.under < q'.made →
      ({ q'.consume e.under (q'.now - e.start) with entry := none } : EngineRealm).Kept := by
    intro q' h' hu
    have hb := h'.books.consume hu (q'.now - e.start)
    exact ⟨h'.answers.congr rfl rfl rfl rfl, hb.congr rfl rfl rfl rfl rfl (Or.inr rfl) hb.parked⟩
  have hd : (if how = .trap then q.discard else q).Kept ∧
      e.under < (if how = .trap then q.discard else q).made := by
    split
    · refine ⟨⟨h.answers.discard, h.books.discard⟩, ?_⟩
      have hmade : q.discard.made = q.made := by
        unfold discard
        split <;> rfl
      rw [hmade]
      exact h.books.entry e he
    · exact ⟨h, h.books.entry e he⟩
  have hl := hq _ hd.1 hd.2
  unfold EngineRealm.leave
  simp only
  split
  · exact hl
  · exact ⟨hl.answers.cutShort _ _, hl.books.cutShort _ _⟩

theorem Kept.unpark (h : q.Kept) (n : Nat) (o : Option ParkedCall)
    (ho : ∀ c, o = some c → c.made < q.made) :
    Kept { q with parked := Function.update q.parked n o } := by
  refine ⟨h.answers.congr rfl rfl rfl rfl, h.books.congr rfl rfl rfl rfl rfl (Or.inl rfl) ?_⟩
  intro m c hc
  by_cases hm : m = n
  · subst hm
    simp only [Function.update_self] at hc
    exact ho c hc
  · simp only [Function.update_of_ne hm] at hc
    exact h.books.parked m c hc

theorem Kept.step (h : q.Kept) (e : Event) : (q.step e).Kept := by
  cases e with
  | elapse ms =>
    exact ⟨h.answers.congr rfl rfl rfl rfl, h.books.congr rfl rfl rfl rfl rfl (Or.inl rfl) h.books.parked⟩
  | invoke d staged =>
    simp only [EngineRealm.step]
    split
    · rename_i hc
      exact h.invoke hc.2 d staged
    · exact h
  | leave how =>
    simp only [EngineRealm.step]
    split
    · exact h
    · rename_i e he
      exact h.leave he how
  | callDone id =>
    simp only [EngineRealm.step]
    split
    · exact h
    · exact ⟨h.answers.answer _ _, h.books.answer _ _⟩
  | callFail id =>
    simp only [EngineRealm.step]
    split
    · exact h
    · exact ⟨h.answers.answer _ _, h.books.answer _ _⟩
  | cancel id => exact ⟨h.answers.answer _ _, h.books.answer _ _⟩
  | dispose => exact ⟨h.answers.discard, h.books.discard⟩
  | park detached timed =>
    simp only [EngineRealm.step]
    split
    · exact h
    · have := h.unpark q.parkSeq (some ⟨q.active, detached, timed, false⟩) fun c hc => by
        obtain rfl := Option.some.inj hc
        exact h.books.active
      exact ⟨this.answers.congr rfl rfl rfl rfl,
        this.books.congr rfl rfl rfl rfl rfl (Or.inl rfl) this.books.parked⟩
  | charge i ms =>
    simp only [EngineRealm.step]
    split
    · rename_i hc
      exact ⟨h.answers.congr rfl rfl rfl rfl, h.books.consume hc.2 ms⟩
    · exact h
  | answered n staged =>
    simp only [EngineRealm.step]
    split
    · rename_i c he hc
      split
      · exact h
      · exact (h.unpark n none fun c hc => by cases hc).settle (h.books.parked n c hc) staged
    · exact h
  | expired n =>
    simp only [EngineRealm.step]
    split
    · rename_i c hc
      split
      · refine h.unpark n _ fun c' hc' => ?_
        obtain rfl := Option.some.inj hc'
        exact h.books.parked n c hc
      · exact h
    · exact h
  | late n staged =>
    simp only [EngineRealm.step]
    split
    · rename_i c he hc
      split
      · exact (h.unpark n none fun c hc => by cases hc).settle (h.books.parked n c hc) staged
      · exact h
    · exact h

theorem Kept.run (h : q.Kept) (es : List Event) : (q.run es).Kept := by
  induction es generalizing q with
  | nil => exact h
  | cons e es ih => exact ih (h.step e)

end Steps

/-! ### The ends of invocations -/

section Ends

variable {q : EngineRealm}

/-- Every invocation open before is answered, as disposed of, and none is open. -/
def AllDisposed (q q' : EngineRealm) : Prop :=
  q'.invocations = [] ∧ ∀ i ∈ q.invocations, (i, .disposed) ∈ q'.settled

theorem discard_all (h : q.Answers) : AllDisposed q q.discard := by
  unfold discard
  split
  · refine ⟨rfl, fun i hi => List.mem_append_right _ ?_⟩
    exact List.mem_map.2 ⟨i, hi, rfl⟩
  · rename_i ha
    have hnone := h.gone (by simpa using ha)
    refine ⟨hnone, fun i hi => ?_⟩
    rw [hnone] at hi
    cases hi

theorem answer_settled (id : Nat) (how : CallOutcome) : q.settled <+: (q.answer id how).settled := by
  unfold answer
  split
  · exact List.prefix_append _ _
  · exact List.prefix_rfl

/-- With none open, an entry's error has nobody to fail. -/
theorem cutShort_none (h : q.invocations = []) (under : Nat) (kind : EntryKind) :
    (q.cutShort under kind).invocations = [] ∧ q.settled <+: (q.cutShort under kind).settled := by
  have hans : ∀ id how, (q.answer id how).invocations = [] := by
    intro id how
    simp [answer, h]
  unfold cutShort
  split
  · unfold discard
    split
    · exact ⟨rfl, List.prefix_append _ _⟩
    · exact ⟨h, List.prefix_rfl⟩
  · exact ⟨hans _ _, answer_settled _ _⟩
  · split
    · exact ⟨hans _ _, answer_settled _ _⟩
    · exact ⟨rfl, List.prefix_append _ _⟩

/-- A trap while bytes are staged disposes of every open invocation. -/
theorem stageEnter_trap (h : q.Answers) (under : Nat) (kind : EntryKind) :
    AllDisposed q (q.stageEnter under kind .trap) := by
  obtain ⟨h1, h2⟩ := discard_all h
  obtain ⟨h3, h4⟩ := cutShort_none h1 under kind
  exact ⟨h3, fun i hi => h4.subset (h2 i hi)⟩

theorem leave_trap (h : q.Answers) (e : EngineEntry) : AllDisposed q (q.leave e .trap) := by
  obtain ⟨h1, h2⟩ := discard_all h
  have h1' : ({ q.discard.consume e.under (q.discard.now - e.start) with entry := none } :
      EngineRealm).invocations = [] := h1
  obtain ⟨h3, h4⟩ := cutShort_none h1' e.under e.kind
  exact ⟨h3, fun i hi => h4.subset (h2 i hi)⟩

/-- What a resumption that is cut short leaves open: not the invocation that made the host
call, and if that is not open, none. -/
def CutShort (m : Nat) (q q' : EngineRealm) : Prop :=
  (∀ i, (q.records m).invocation = some i → i ∉ q'.invocations) ∧
  ((∀ i, (q.records m).invocation = some i → i ∉ q.invocations) → q'.invocations = [])

theorem cutShort_settle (h : q.Answers) {under m : Nat}
    (hu : under = m ∨ (q.records under).invocation = none) :
    CutShort m q (q.cutShort under (.settle m)) := by
  have hnodup : q.invocations.Nodup := (List.nodup_append.1 h.nodup).2.1
  unfold EngineRealm.cutShort
  simp only
  cases ho : q.openOf under with
  | none => exact ⟨fun _ _ => List.not_mem_nil, fun _ => rfl⟩
  | some id =>
    have hopen : (q.records under).invocation = some id ∧ id ∈ q.invocations := by
      unfold openOf at ho
      split at ho
      · rename_i j hj
        split at ho
        · rename_i hin
          obtain rfl := Option.some.inj ho
          exact ⟨hj, hin⟩
        · cases ho
      · cases ho
    obtain rfl : under = m := by
      rcases hu with hu | hu
      · exact hu
      · cases hu.symm.trans hopen.1
    refine ⟨fun i hi => ?_, fun hnot => absurd hopen.2 (hnot id hopen.1)⟩
    obtain rfl : id = i := Option.some.inj (hopen.1.symm.trans hi)
    simp only [EngineRealm.answer, if_pos hopen.2]
    exact hnodup.not_mem_erase

/-- An answer there is no memory for cuts its resumption short. -/
theorem settle_unstaged (h : q.Answers) (c : ParkedCall) (ha : q.alive = true) :
    CutShort c.made q (q.settle c .outOfMemory) := by
  have hlive : ¬ q.alive = false := by simp [ha]
  unfold EngineRealm.settle
  rw [if_neg hlive]
  split
  · -- the fresh record fails nobody
    have hopen : (q.addRecord q.createDefault).openOf q.made = none := by
      simp [openOf, addRecord, createDefault]
    simp only [stageEnter, EngineRealm.cutShort, hopen]
    exact ⟨fun i _ => List.not_mem_nil, fun _ => rfl⟩
  · exact cutShort_settle h (Or.inl rfl)

theorem settle_trap (h : q.Answers) (c : ParkedCall) (ha : q.alive = true) :
    AllDisposed q (q.settle c .trap) := by
  have hlive : ¬ q.alive = false := by simp [ha]
  unfold EngineRealm.settle
  rw [if_neg hlive]
  split
  · have hr : (q.addRecord q.createDefault).Answers := h.congr rfl rfl rfl rfl
    exact stageEnter_trap hr q.made (.settle c.made)
  · exact stageEnter_trap h c.made (.settle c.made)

end Ends

/-- Invocations are settled once, and none is left to wait. -/
structure Settles (q : EngineRealm) : Prop where
  once : (q.settled.map Prod.fst).Nodup
  /-- Of the invocations there were, those not answered are in the table, and only they. -/
  open' : ∀ i, i ∈ q.invocations ↔ (1 ≤ i ∧ i ≤ q.invocationSeq ∧ i ∉ q.settled.map Prod.fst)
  disposed : AllDisposed q (q.step .dispose)
  trapped : q.entry ≠ none → AllDisposed q (q.step (.leave .trap))
  /-- Likewise when the export that stages a payload or an answer traps. -/
  staged : ∀ d, q.entry = none → q.alive = true → q.create d (some (q.invocationSeq + 1)) ≠ none →
    AllDisposed q (q.step (.invoke d .trap))
  restaged : ∀ n c, q.entry = none → q.alive = true → q.parked n = some c →
    (c.expiring = false → AllDisposed q (q.step (.answered n .trap))) ∧
    (c.expiring = true → AllDisposed q (q.step (.late n .trap)))
  /-- A resumption that is cut short, in the guest or before it. -/
  cut : ∀ e m, q.entry = some e → e.kind = .settle m → ∀ how, how = .interrupted ∨ how = .failed →
    CutShort m q (q.step (.leave how))
  unstaged : ∀ n c, q.entry = none → q.alive = true → q.parked n = some c →
    (c.expiring = false → CutShort c.made q (q.step (.answered n .outOfMemory))) ∧
    (c.expiring = true → CutShort c.made q (q.step (.late n .outOfMemory)))
  /-- Each entry is within what its record had left. -/
  granted : ∀ g ∈ q.grants, Within q.spent (q.records g.under) g
  /-- A detached call resumes on a fresh record. -/
  detached : ∀ n c, q.entry = none → q.alive = true → q.parked n = some c → c.expiring = false →
    c.detached = true → (q.step (.answered n .ok)).entry = some ⟨q.made, q.now, .settle c.made⟩ ∧
      (q.step (.answered n .ok)).records q.made = q.createDefault

theorem settles_of_kept {q : EngineRealm} (h : q.Kept) : q.Settles where
  once := (List.nodup_append.1 h.answers.nodup).1
  open' := by
    intro i
    obtain ⟨-, -, hdisj⟩ := List.nodup_append.1 h.answers.nodup
    have hmem := (h.answers.custody.mem_iff (a := i))
    rw [List.mem_append, List.mem_range'_1] at hmem
    constructor
    · intro hi
      have hr := hmem.1 (Or.inr hi)
      exact ⟨hr.1, by omega, fun hs => hdisj i hs i hi rfl⟩
    · rintro ⟨h1, h2, h3⟩
      exact (hmem.2 ⟨h1, by omega⟩).resolve_left h3
  disposed := discard_all h.answers
  trapped := by
    intro he
    cases hq : q.entry with
    | none => exact absurd hq he
    | some e =>
      simp only [step, hq]
      exact leave_trap h.answers e
  staged := by
    intro d he ha hc
    have hstep : q.step (.invoke d .trap) = q.invoke d .trap := by simp [step, he, ha]
    rw [hstep]
    cases hr : q.create d (some (q.invocationSeq + 1)) with
    | none => exact absurd hr hc
    | some r =>
      simp only [invoke, hr]
      obtain ⟨h1, h2⟩ := stageEnter_trap (h.answers.opened ha r) q.made (.invoke (q.invocationSeq + 1))
      exact ⟨h1, fun i hi => h2 i (List.mem_append_left _ hi)⟩
  restaged := by
    intro n c he ha hc
    have hk := h.unpark n none fun c hc => by cases hc
    obtain ⟨h1, h2⟩ := settle_trap hk.answers c ha
    refine ⟨fun hx => ?_, fun hx => ?_⟩
    · have hstep : q.step (.answered n .trap) =
          { q with parked := Function.update q.parked n none }.settle c .trap := by
        simp [step, he, hc, hx]
      rw [hstep]
      exact ⟨h1, h2⟩
    · have hstep : q.step (.late n .trap) =
          { q with parked := Function.update q.parked n none }.settle c .trap := by
        simp [step, he, hc, hx]
      rw [hstep]
      exact ⟨h1, h2⟩
  cut := by
    intro e m he hk how hhow
    have hstep : q.step (.leave how) = q.leave e how := by simp [step, he]
    have hnt : how ≠ .trap := by rcases hhow with rfl | rfl <;> simp
    have hno : how ≠ .ok := by rcases hhow with rfl | rfl <;> simp
    have hinv : ∀ j, ((q.consume e.under (q.now - e.start)).records j).invocation =
        (q.records j).invocation := by
      intro j
      by_cases hj : j = e.under
      · subst hj
        simp [consume]
      · simp [consume, hj]
    have ha : Answers { q.consume e.under (q.now - e.start) with entry := none } :=
      h.answers.congr rfl rfl rfl rfl
    have hcut := cutShort_settle ha ((h.books.resumes e m he hk).imp_right (hinv e.under).trans)
    rw [hstep]
    simp only [leave, if_neg hnt, if_neg hno, hk]
    obtain ⟨h1, h2⟩ := hcut
    refine ⟨fun i hi => h1 i ((hinv m).trans hi), fun hn => h2 fun i hi => hn i ((hinv m).symm.trans hi)⟩
  unstaged := by
    intro n c he ha hc
    have hmain : CutShort c.made q
        ({ q with parked := Function.update q.parked n none }.settle c .outOfMemory) := by
      have hk := h.unpark n none fun c hc => by cases hc
      obtain ⟨h1, h2⟩ := settle_unstaged hk.answers c ha
      exact ⟨h1, h2⟩
    refine ⟨fun hx => ?_, fun hx => ?_⟩
    · have hstep : q.step (.answered n .outOfMemory) =
          { q with parked := Function.update q.parked n none }.settle c .outOfMemory := by
        simp [step, he, hc, hx]
      rw [hstep]
      exact hmain
    · have hstep : q.step (.late n .outOfMemory) =
          { q with parked := Function.update q.parked n none }.settle c .outOfMemory := by
        simp [step, he, hc, hx]
      rw [hstep]
      exact hmain
  granted := h.books.granted
  detached := by
    intro n c he ha hc hx hd
    have hstep : q.step (.answered n .ok) =
        { q with parked := Function.update q.parked n none }.settle c .ok := by
      simp [step, he, hc, hx]
    rw [hstep]
    simp [settle, ha, hd, stageEnter, enter, addRecord, createDefault]

/-- In every run of a realm, invocations are settled once and none is left to wait. -/
theorem run_settles (configuredMs : Option ℚ) (es : List Event) :
    ((start configuredMs).run es).Settles :=
  settles_of_kept ((kept_start configuredMs).run es)

end EngineRealm

end SeedTransport
