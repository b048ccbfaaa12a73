import SeedTransport.Util

set_option autoImplicit false

namespace SeedTransport

/-! One module of a slot and the workers it runs on (`module-table.ts`). Workers are named in
the order they are spawned and calls in the order they are made. What a worker's message, a
timer or an error sets off runs before the next of these; only a call or a teardown made in
one of its microtasks can come between. -/

structure ModuleResult where
  bytes : Option Bytes
  ms : Nat
  deriving DecidableEq

def MODULE_FAILED : ModuleResult := ⟨none, 0⟩

/-- A call in the chain; `bound` is `none` for `Infinity`. -/
structure ModuleCall where
  call : Nat
  bound : Option Nat
  deriving DecidableEq

/-- What the chain is at: nothing, a worker on its way or loading, a load that is over and
not taken up by `load` or by `call`, or a call on a worker, which `pending` settles. A load
for no call is the module's first. -/
inductive WorkStage where
  | idle
  | spawning (c : Option ModuleCall)
  | loading (w : Nat) (c : Option ModuleCall)
  | loaded (w : Nat) (c : Option ModuleCall)
  | resuming (w : Nat) (c : ModuleCall)
  | posted (w : Nat) (c : ModuleCall)
  deriving DecidableEq

inductive Post where
  | load
  | call (c : Nat)
  deriving DecidableEq

/-- SettledHow a call was settled; a result says which worker it is from and for which call that
worker made it. -/
inductive SettledHow where
  | refused
  | failed
  | late
  | result (w k : Nat)
  deriving DecidableEq

/-- `inbox` is what a worker was posted and has not answered. The last five are for an
observer. -/
structure ModuleRef where
  deadlineMs : Option Nat
  worker : Option Nat
  dead : Bool
  scratchSize : Nat
  built : Bool
  calls : Nat
  tail : List ModuleCall
  stage : WorkStage
  workers : Nat
  inbox : Nat → List Nat
  killed : List Nat
  crashed : List Nat
  posts : List (Nat × Post)
  latePosts : List (Nat × Post)
  settled : List (Nat × SettledHow × ModuleResult)

namespace ModuleRef

/-- `spawn`: the first load is on its way. -/
def spawn (deadlineMs : Option Nat) : ModuleRef where
  deadlineMs := deadlineMs
  worker := none
  dead := false
  scratchSize := 0
  built := false
  calls := 0
  tail := []
  stage := .spawning none
  workers := 0
  inbox := fun _ => []
  killed := []
  crashed := []
  posts := []
  latePosts := []
  settled := []

def kill (w : Nat) (q : ModuleRef) : ModuleRef := { q with killed := q.killed ++ [w] }

def settle (c : Nat) (how : SettledHow) (r : ModuleResult) (q : ModuleRef) : ModuleRef :=
  { q with settled := q.settled ++ [(c, how, r)] }

def post (w : Nat) (p : Post) (q : ModuleRef) : ModuleRef :=
  { q with
    posts := q.posts ++ [(w, p)]
    latePosts := if q.dead then q.latePosts ++ [(w, p)] else q.latePosts
    inbox := match p with
      | .load => q.inbox
      | .call c => Function.update q.inbox w (q.inbox w ++ [c]) }

/-- `answer`: the call in flight is settled, if there is one. -/
def answer (how : SettledHow) (r : ModuleResult) (q : ModuleRef) : ModuleRef :=
  match q.stage with
  | .posted _ c => { q.settle c.call how r with stage := .idle }
  | _ => q

/-- A load came to nothing: its call answers empty, and a first load has no module. -/
def loadFailed (c : Option ModuleCall) (q : ModuleRef) : ModuleRef :=
  match c with
  | none => { q with stage := .idle }
  | some c => { q.settle c.call .failed MODULE_FAILED with
      worker := none
      stage := .idle }

/-- A call runs on a worker. -/
def exchange (w : Nat) (c : ModuleCall) (q : ModuleRef) : ModuleRef :=
  { q.post w (.call c.call) with stage := .posted w c }

/-- `callModule`; `deadlineMs` is absent for the table's own. -/
def callModule (length : Nat) (deadlineMs : Option (Option Nat)) (q : ModuleRef) : ModuleRef :=
  let q' := { q with calls := q.calls + 1 }
  if q.scratchSize < length then q'.settle q.calls .refused MODULE_FAILED
  else { q' with tail := q.tail ++ [⟨q.calls, deadlineMs.getD q.deadlineMs⟩] }

/-- `call`, as far as it goes at once. -/
def call (c : ModuleCall) (q : ModuleRef) : ModuleRef :=
  if q.dead then q.settle c.call .failed MODULE_FAILED
  else
    match q.worker with
    | some w => q.exchange w c
    | none => { q with stage := .spawning (some c) }

/-- `load` has its worker. -/
def spawned (c : Option ModuleCall) (q : ModuleRef) : ModuleRef :=
  let w := q.workers
  let q := { q with workers := q.workers + 1 }
  if q.dead then (q.kill w).loadFailed c
  else { { q with worker := some w }.post w .load with stage := .loading w c }

/-- The load's worker is ready, and `load` goes on. -/
def loadEnd (w : Nat) (c : Option ModuleCall) (q : ModuleRef) : ModuleRef :=
  if q.dead then ({ q with worker := none }.kill w).loadFailed c
  else
    match c with
    | none => { q with
        built := true
        stage := .idle }
    | some c => { q with stage := .resuming w c }

def teardown (q : ModuleRef) : ModuleRef :=
  let q := { q with dead := true }.answer .failed MODULE_FAILED
  match q.worker with
  | none => q
  | some w => { q.kill w with worker := none }

def expire (q : ModuleRef) : ModuleRef :=
  match q.stage with
  | .loading w c => if q.deadlineMs = none then q else (q.kill w).loadFailed c
  | .posted w c =>
    match c.bound with
    | none => q
    | some bound => { (q.answer .late ⟨none, bound⟩).kill w with worker := none }
  | _ => q

/-- The engine of a worker fails: its load does, or the call in flight. -/
def error (w : Nat) (q : ModuleRef) : ModuleRef :=
  match q.stage with
  | .loading w' c => if w' = w then (q.kill w).loadFailed c else q
  | _ =>
    if q.built = true ∧ q.worker = some w then
      { q.answer .failed MODULE_FAILED with
        worker := none
        crashed := q.crashed ++ [w] }
    else q

/-- A worker answers what it was posted, the oldest first. A killed one may have sent it
before. -/
def result (w : Nat) (bytes : Option Bytes) (ms : Nat) (q : ModuleRef) : ModuleRef :=
  match q.inbox w with
  | [] => q
  | k :: rest =>
    let q := { q with inbox := Function.update q.inbox w rest }
    if q.worker = some w then q.answer (.result w k) ⟨bytes, ms⟩ else q

inductive Event where
  | callModule (length : Nat) (deadlineMs : Option (Option Nat))
  | teardown
  /-- Microtasks: the next call of the chain, or what waits for a load. -/
  | next
  | spawned
  | spawnFailed
  | ready (w scratchSize : Nat)
  | loadError (w : Nat)
  | result (w : Nat) (bytes : Option Bytes) (ms : Nat)
  | error (w : Nat)
  | expire

/-- Whether a load is over and its microtasks are not. -/
def inMicrotasks (q : ModuleRef) : Bool :=
  match q.stage with
  | .loaded _ _ => true
  | .resuming _ _ => true
  | _ => false

def step (q : ModuleRef) : Event → ModuleRef
  | .callModule length deadlineMs => if q.built then q.callModule length deadlineMs else q
  | .teardown => if q.built then q.teardown else q
  | .next =>
    match q.stage, q.tail with
    | .idle, c :: rest => { q with tail := rest }.call c
    | .loaded w c, _ => q.loadEnd w c
    | .resuming w c, _ => q.exchange w c
    | _, _ => q
  | .spawned =>
    match q.stage with
    | .spawning c => q.spawned c
    | _ => q
  | .spawnFailed =>
    match q.stage with
    | .spawning c => q.loadFailed c
    | _ => q
  | .ready w scratchSize =>
    match q.stage with
    | .loading w' c =>
      if w' = w then
        { q with
          scratchSize := scratchSize
          stage := .loaded w c }
      else q
    | _ => q
  | .loadError w =>
    match q.stage with
    | .loading w' c => if w' = w then (q.kill w).loadFailed c else q
    | _ => q
  | .result w bytes ms => if q.inMicrotasks then q else q.result w bytes ms
  | .error w => if q.inMicrotasks then q else q.error w
  | .expire => q.expire

def run (q : ModuleRef) (es : List Event) : ModuleRef := es.foldl step q

/-! ### What the table keeps -/

end ModuleRef

/-- The call a stage is for. -/
def WorkStage.call : WorkStage → Option ModuleCall
  | .idle => none
  | .spawning c => c
  | .loading _ c => c
  | .loaded _ c => c
  | .resuming _ c => some c
  | .posted _ c => some c

/-- The call a stage has on a worker. -/
def WorkStage.onWorker : WorkStage → Option Nat
  | .posted _ c => some c.call
  | _ => none

/-- The worker a stage is about. -/
def WorkStage.worker : WorkStage → Option Nat
  | .loading w _ => some w
  | .loaded w _ => some w
  | .resuming w _ => some w
  | .posted w _ => some w
  | _ => none

def Post.callOf : Nat × Post → Option Nat
  | (_, .call c) => some c
  | (_, .load) => none

namespace ModuleRef

/-- The calls not settled, in order. -/
def owed (q : ModuleRef) : List Nat := (q.stage.call.toList ++ q.tail).map ModuleCall.call

/-- The calls that no worker was posted. -/
def unposted (q : ModuleRef) : List Nat :=
  if q.stage.onWorker = none then q.owed else q.tail.map ModuleCall.call

def posted (q : ModuleRef) : List Nat := q.posts.filterMap Post.callOf

/-- What holds of a module between two steps. -/
structure Kept (q : ModuleRef) : Prop where
  /-- Before the module is built nothing but its first load happens. -/
  unbuilt : q.built = false → q.calls = 0 ∧ q.owed = [] ∧ q.dead = false
  first : q.stage.call = none → q.stage ≠ .idle → q.built = false
  /-- Every call is settled once, or owed. -/
  custody : (q.settled.map Prod.fst ++ q.owed).Perm (List.range q.calls)
  inOrder : (q.posted ++ q.unposted).Pairwise (· < ·)
  /-- A call on a worker is settled, or the one in flight. -/
  single : ∀ c ∈ q.posted, c ∈ q.settled.map Prod.fst ∨ q.stage.onWorker = some c
  /-- A worker is attached, killed or crashed. -/
  workers : ∀ w, w < q.workers → q.worker = some w ∨ w ∈ q.killed ∨ w ∈ q.crashed
  attached : ∀ w, q.worker = some w → w < q.workers ∧ q.dead = false ∧
    (q.built = true ∨ q.stage ≠ .idle → w ∉ q.killed)
  idle : ∀ c, q.stage = .spawning c → q.worker = none
  /-- The worker of a load or of a call is the attached one, unless the module was
  released. -/
  staged : ∀ w, q.stage.worker = some w → w < q.workers ∧ (q.dead = false → q.worker = some w)
  flying : ∀ w c, q.stage = .posted w c → q.dead = false ∧ (w, .call c.call) ∈ q.posts
  resumed : ∀ w c, q.stage = .resuming w c → q.dead = false
  /-- The attached worker has the call in flight before it, and nothing else. -/
  inbox : ∀ w, q.worker = some w → q.inbox w = q.stage.onWorker.toList
  clear : ∀ w, q.workers ≤ w → q.inbox w = []
  born : ∀ w ∈ q.killed, w < q.workers
  /-- A result is for its own call, from the worker that had it. -/
  own : ∀ s ∈ q.settled, ∀ w k, s.2.1 = .result w k → k = s.1 ∧ (w, .call s.1) ∈ q.posts
  quiet : q.latePosts = []
  /-- A load that was cut off has a timer. -/
  timed : ∀ w c, q.stage = .loading w (some c) → q.deadlineMs ≠ none ∨ w ∉ q.killed

theorem kept_spawn (d : Option Nat) : (spawn d).Kept where
  unbuilt := by simp [spawn, owed, WorkStage.call]
  first := fun _ _ => rfl
  custody := List.Perm.refl _
  inOrder := List.Pairwise.nil
  single := by simp [spawn, posted]
  workers := by simp [spawn]
  attached := by simp [spawn]
  idle := by simp [spawn]
  staged := by simp [spawn, WorkStage.worker]
  flying := by simp [spawn]
  resumed := by simp [spawn]
  inbox := by simp [spawn]
  clear := by simp [spawn]
  born := by simp [spawn]
  own := by simp [spawn]
  quiet := rfl
  timed := by simp [spawn]

section Moves

variable {q q' : ModuleRef} {c : ModuleCall} {w : Nat}

theorem Kept.built (h : q.Kept) (hc : q.stage.call = some c) : q.built = true := by
  by_contra hb
  simp only [Bool.not_eq_true] at hb
  have := (h.unbuilt hb).2.1
  simp [owed, hc] at this

theorem owed_idle (hs : q.stage = .idle) : q.owed = q.tail.map ModuleCall.call := by
  simp [owed, hs, WorkStage.call]

theorem unposted_idle (hs : q.stage = .idle) : q.unposted = q.tail.map ModuleCall.call := by
  simp [unposted, owed, hs, WorkStage.call, WorkStage.onWorker]

theorem owed_call (hc : q.stage.call = some c) : q.owed = c.call :: q.tail.map ModuleCall.call := by
  simp [owed, hc]

/-- What is left unposted once a call is over was unposted before. -/
theorem tail_sublist : (q.tail.map ModuleCall.call).Sublist q.unposted := by
  unfold unposted owed
  split
  · rw [List.map_append]
    exact List.sublist_append_right _ _
  · exact List.Sublist.refl _

/-- The call a stage is for is settled, and the chain is free. -/
theorem Kept.finish {a : SettledHow} {r : ModuleResult} (h : q.Kept) (hc : q.stage.call = some c)
    (hsettled : q'.settled = q.settled ++ [(c.call, a, r)]) (hstage : q'.stage = .idle)
    (hsame : q'.tail = q.tail ∧ q'.posts = q.posts ∧ q'.latePosts = q.latePosts ∧
      q'.calls = q.calls ∧ q'.built = q.built)
    (hown : ∀ w k, a = .result w k → k = c.call ∧ (w, .call c.call) ∈ q.posts)
    (hworkers : ∀ w, w < q'.workers → q'.worker = some w ∨ w ∈ q'.killed ∨ w ∈ q'.crashed)
    (hattached : ∀ w, q'.worker = some w → w < q'.workers ∧ q'.dead = false ∧ w ∉ q'.killed)
    (hinbox : ∀ w, q'.worker = some w → q'.inbox w = [])
    (hclear : ∀ w, q'.workers ≤ w → q'.inbox w = [])
    (hborn : ∀ w ∈ q'.killed, w < q'.workers) : q'.Kept := by
  obtain ⟨htail, hposts, hlate, hcalls, hbuilt⟩ := hsame
  have hb : q'.built = true := hbuilt.trans (h.built hc)
  have howed : q'.owed = q.tail.map ModuleCall.call := by rw [owed_idle hstage, htail]
  have hposted : q'.posted = q.posted := by rw [posted, hposts, posted]
  have hon : q.stage.onWorker = none ∨ q.stage.onWorker = some c.call := by
    cases hs : q.stage with
    | posted w' c' =>
      right
      rw [hs] at hc
      obtain rfl : c' = c := Option.some.inj hc
      rfl
    | idle => exact Or.inl rfl
    | spawning c' => exact Or.inl rfl
    | loading w' c' => exact Or.inl rfl
    | loaded w' c' => exact Or.inl rfl
    | resuming w' c' => exact Or.inl rfl
  refine ⟨fun hf => ?_, fun _ hne => absurd hstage hne, ?_, ?_, fun d hd => ?_, hworkers,
    fun w' hw => ⟨(hattached w' hw).1, (hattached w' hw).2.1, fun _ => (hattached w' hw).2.2⟩,
    fun d hd => ?_, fun w' hw => ?_,
    fun w' d hd => ?_, fun w' d hd => ?_, fun w' hw => ?_, hclear, hborn, fun s hs => ?_, ?_,
    fun w' d hd => ?_⟩
  · rw [hb] at hf
    cases hf
  · have hold := h.custody
    rw [owed_call hc] at hold
    rw [hsettled, hcalls, howed]
    simpa using hold
  · rw [hposted, unposted_idle hstage, htail]
    exact h.inOrder.sublist ((List.Sublist.refl _).append tail_sublist)
  · rw [hposted] at hd
    rw [hsettled, List.map_append]
    refine Or.inl (List.mem_append.2 ?_)
    rcases h.single d hd with hin | hin
    · exact Or.inl hin
    · rcases hon with ho | ho
      · rw [ho] at hin
        cases hin
      · rw [ho] at hin
        exact Or.inr (by simp [Option.some.inj hin])
  · rw [hstage] at hd
    cases hd
  · rw [hstage] at hw
    cases hw
  · rw [hstage] at hd
    cases hd
  · rw [hstage] at hd
    cases hd
  · rw [hstage]
    exact hinbox w' hw
  · rw [hposts]
    rw [hsettled] at hs
    rcases List.mem_append.1 hs with hs | hs
    · exact h.own s hs
    · obtain rfl := List.mem_singleton.1 hs
      exact hown
  · rw [hlate]
    exact h.quiet
  · rw [hstage] at hd
    cases hd

/-- The stage moves on with its call, and no call is posted. -/
theorem Kept.stage {x : WorkStage} (h : q.Kept) (hcall : x.call = q.stage.call)
    (hoff : q.stage.onWorker = none) (hon : x.onWorker = none)
    (hfirst : x = .idle ∨ q.stage ≠ .idle)
    (hspawning : ∀ c, x = .spawning c → q.worker = none)
    (hstaged : ∀ w, x.worker = some w → q.stage.worker = some w)
    (hresumed : ∀ w c, x = .resuming w c → q.dead = false)
    (hloading : ∀ w c, x = .loading w (some c) → q.deadlineMs ≠ none ∨ w ∉ q.killed) :
    Kept { q with stage := x } := by
  have howed : owed { q with stage := x } = q.owed := by simp [owed, hcall]
  have hun : unposted { q with stage := x } = q.unposted := by
    simp only [unposted, hon, hoff, if_true]
    exact howed
  refine { h with
    unbuilt := fun hb => ?_
    first := fun hn hne => h.first (hcall ▸ hn) (hfirst.resolve_left hne)
    attached := fun w hw => ⟨(h.attached w hw).1, (h.attached w hw).2.1, fun hor =>
      (h.attached w hw).2.2 (hor.imp_right fun hne => hfirst.resolve_left hne)⟩
    custody := ?_
    inOrder := ?_
    single := fun d hd => ?_
    idle := hspawning
    staged := fun w hw => h.staged w (hstaged w hw)
    flying := fun w d hd => ?_
    resumed := hresumed
    inbox := fun w hw => ?_
    timed := hloading }
  · rw [howed]
    exact h.unbuilt hb
  · rw [howed]
    exact h.custody
  · rw [hun]
    exact h.inOrder
  · rcases h.single d hd with hin | hin
    · exact Or.inl hin
    · rw [hoff] at hin
      cases hin
  · simp only at hd
    rw [hd] at hon
    cases hon
  · simp only [hon]
    rw [h.inbox w hw, hoff]

/-- The next call of the chain has its turn. -/
theorem Kept.take {rest : List ModuleCall} {x : WorkStage} (h : q.Kept) (hidle : q.stage = .idle)
    (htail : q.tail = c :: rest) (hcall : x.call = some c) (hon : x.onWorker = none)
    (hspawning : ∀ c, x = .spawning c → q.worker = none)
    (hstaged : ∀ w, x.worker = some w → q.worker = some w)
    (hresumed : ∀ w c, x = .resuming w c → q.dead = false)
    (hloading : ∀ w c, x ≠ .loading w c) :
    Kept { q with
      tail := rest
      stage := x } := by
  have howed : owed { q with
      tail := rest
      stage := x } = q.owed := by
    rw [owed_idle hidle, htail, owed_call hcall]
    rfl
  have hbuilt : q.built = true := by
    by_contra hb
    simp only [Bool.not_eq_true] at hb
    have := (h.unbuilt hb).2.1
    rw [owed_idle hidle, htail] at this
    cases this
  have hun : unposted { q with
      tail := rest
      stage := x } = q.unposted := by
    rw [unposted_idle hidle, ← owed_idle hidle, ← howed]
    simp only [unposted, hon, if_true]
  refine { h with
    unbuilt := fun hb => ?_
    first := fun hn => by rw [hcall] at hn; cases hn
    attached := fun w hw => ⟨(h.attached w hw).1, (h.attached w hw).2.1, fun _ =>
      (h.attached w hw).2.2 (Or.inl hbuilt)⟩
    custody := ?_
    inOrder := ?_
    single := fun d hd => ?_
    idle := hspawning
    staged := fun w hw => ⟨(h.attached w (hstaged w hw)).1, fun _ => hstaged w hw⟩
    flying := fun w d hd => ?_
    resumed := hresumed
    inbox := fun w hw => ?_
    timed := fun w d hd => absurd hd (hloading w _) }
  · rw [howed]
    exact h.unbuilt hb
  · rw [howed]
    exact h.custody
  · rw [hun]
    exact h.inOrder
  · rcases h.single d hd with hin | hin
    · exact Or.inl hin
    · rw [hidle] at hin
      cases hin
  · simp only at hd
    rw [hd] at hon
    cases hon
  · simp only [hon]
    rw [h.inbox w hw, hidle]
    rfl

/-- A call is posted to the attached worker. -/
theorem Kept.exchange (h : q.Kept) (hst : q.stage = .resuming w c) : (q.exchange w c).Kept := by
  have hdead := h.resumed w c hst
  obtain ⟨hw, hatt⟩ := h.staged w (by rw [hst]; rfl)
  have hworker := hatt hdead
  have hinbox : q.inbox w = [] := by
    rw [h.inbox w hworker, hst]
    rfl
  have hcall : q.stage.call = some c := by rw [hst]; rfl
  have hunp : q.unposted = c.call :: q.tail.map ModuleCall.call := by
    rw [← owed_call hcall]
    simp [unposted, hst, WorkStage.onWorker]
  have hposted : (q.exchange w c).posted = q.posted ++ [c.call] := by
    simp [ModuleRef.exchange, post, posted, Post.callOf]
  have hunposted : (q.exchange w c).unposted = q.tail.map ModuleCall.call := by
    simp [ModuleRef.exchange, post, unposted, WorkStage.onWorker]
  have howed : (q.exchange w c).owed = q.owed := by
    rw [owed_call hcall]
    simp [ModuleRef.exchange, post, owed, WorkStage.call]
  refine { h with
    unbuilt := fun hb => ?_
    first := fun hn => by cases hn
    attached := fun w' hw' => ⟨(h.attached w' hw').1, (h.attached w' hw').2.1, fun _ =>
      (h.attached w' hw').2.2 (Or.inr (by rw [hst]; simp))⟩
    custody := ?_
    inOrder := ?_
    single := fun d hd => ?_
    idle := fun d hd => by cases hd
    staged := fun w' hw' => ?_
    flying := fun w' d hd => ?_
    resumed := fun w' d hd => by cases hd
    inbox := fun w' hw' => ?_
    clear := fun w' hw' => ?_
    own := fun s hs w' k hk => ?_
    quiet := ?_
    timed := fun w' d hd => by cases hd }
  · rw [howed]
    exact h.unbuilt hb
  · rw [howed]
    exact h.custody
  · rw [hposted, hunposted]
    have := h.inOrder
    rw [hunp] at this
    simpa using this
  · rw [hposted] at hd
    rcases List.mem_append.1 hd with hd | hd
    · rcases h.single d hd with hin | hin
      · exact Or.inl hin
      · rw [hst] at hin
        cases hin
    · exact Or.inr (by simp [ModuleRef.exchange, WorkStage.onWorker, List.mem_singleton.1 hd])
  · obtain rfl : w = w' := Option.some.inj hw'
    exact ⟨hw, fun _ => hworker⟩
  · obtain ⟨rfl, rfl⟩ := WorkStage.posted.inj hd
    exact ⟨hdead, by simp [ModuleRef.exchange, post]⟩
  · have hw'' : q.worker = some w' := hw'
    obtain rfl : w = w' := Option.some.inj (hworker.symm.trans hw'')
    simp [ModuleRef.exchange, post, WorkStage.onWorker, hinbox]
  · have hne : w' ≠ w := by
      have hw'' : q.workers ≤ w' := hw'
      omega
    simp only [ModuleRef.exchange, post, Function.update_of_ne hne]
    exact h.clear w' hw'
  · obtain ⟨h1, h2⟩ := h.own s hs w' k hk
    exact ⟨h1, by simp [ModuleRef.exchange, post, h2]⟩
  · simpa [ModuleRef.exchange, post, hdead] using h.quiet

/-- A load that has no call to fail leaves the chain free. -/
theorem Kept.settleNone (h : q.Kept) (hc : q.stage.call = none) : Kept { q with stage := .idle } := by
  have hoff : q.stage.onWorker = none := by
    cases hs : q.stage with
    | posted w' c' =>
      rw [hs] at hc
      cases hc
    | idle => rfl
    | spawning c' => rfl
    | loading w' c' => rfl
    | loaded w' c' => rfl
    | resuming w' c' => rfl
  exact h.stage hc.symm hoff rfl (Or.inl rfl) (fun c hc => by cases hc) (fun w hw => by cases hw)
    (fun w c hc => by cases hc) (fun w c hc => by cases hc)

/-- A worker that a load was for is killed, and the load's call answers empty. -/
theorem Kept.loadKilled {o : Option ModuleCall} (h : q.Kept)
    (hst : q.stage = .loading w o ∨ q.stage = .loaded w o) :
    ((q.kill w).loadFailed o).Kept := by
  have hcall : q.stage.call = o := by
    rcases hst with hst | hst <;> rw [hst] <;> rfl
  have hsw : q.stage.worker = some w := by
    rcases hst with hst | hst <;> rw [hst] <;> rfl
  have hborn : ∀ w' ∈ q.killed ++ [w], w' < q.workers := by
    intro w' hw'
    rcases List.mem_append.1 hw' with hw' | hw'
    · exact h.born w' hw'
    · exact List.mem_singleton.1 hw' ▸ (h.staged w hsw).1
  cases o with
  | none =>
    have hne : q.stage ≠ .idle := by
      rcases hst with hst | hst <;> rw [hst] <;> simp
    have hb := h.first hcall hne
    have hk := h.settleNone hcall
    exact { hk with
      workers := fun w' hw' => (h.workers w' hw').imp_right (Or.imp_left (List.mem_append_left _))
      attached := fun w' hw' => ⟨(h.attached w' hw').1, (h.attached w' hw').2.1,
        fun hor => (hor.elim (fun hbuilt => by cases hb.symm.trans hbuilt) fun hne => absurd rfl hne)⟩
      born := hborn
      timed := fun w' d hd => by cases hd }
  | some c =>
    refine h.finish (c := c) (a := .failed) (r := MODULE_FAILED) hcall rfl rfl ⟨rfl, rfl, rfl, rfl, rfl⟩
      (fun w k hk => by cases hk) (fun w' hw' => ?_) (fun w' hw' => by cases hw')
      (fun w' hw' => by cases hw') h.clear hborn
    rcases h.workers w' hw' with hin | hin | hin
    · refine Or.inr (Or.inl (List.mem_append_right _ ?_))
      by_cases hd : q.dead = false
      · rw [(h.staged w hsw).2 hd] at hin
        simp [Option.some.inj hin]
      · exact absurd (h.attached w' hin).2.1 hd
    · exact Or.inr (Or.inl (List.mem_append_left _ hin))
    · exact Or.inr (Or.inr hin)

theorem Kept.spawnFailed {o : Option ModuleCall} (h : q.Kept) (hst : q.stage = .spawning o) :
    (q.loadFailed o).Kept := by
  have hcall : q.stage.call = o := by rw [hst]; rfl
  have hnone := h.idle o hst
  cases o with
  | none => exact h.settleNone hcall
  | some c =>
    refine h.finish (c := c) (a := .failed) (r := MODULE_FAILED) hcall rfl rfl ⟨rfl, rfl, rfl, rfl, rfl⟩
      (fun w k hk => by cases hk) (fun w' hw' => ?_) (fun w' hw' => by cases hw')
      (fun w' hw' => by cases hw') h.clear h.born
    have := h.workers w' hw'
    rw [hnone] at this
    exact this

theorem Kept.spawned {o : Option ModuleCall} (h : q.Kept) (hst : q.stage = .spawning o) :
    (q.spawned o).Kept := by
  have hcall : q.stage.call = o := by rw [hst]; rfl
  have hnone := h.idle o hst
  unfold ModuleRef.spawned
  simp only
  split
  · rename_i hdead
    have hdead' : q.dead = true := hdead
    cases o with
    | none =>
      have hb := h.first hcall (by rw [hst]; simp)
      have := (h.unbuilt hb).2.2
      rw [hdead'] at this
      cases this
    | some c =>
      refine h.finish (c := c) (a := .failed) (r := MODULE_FAILED) hcall rfl rfl
        ⟨rfl, rfl, rfl, rfl, rfl⟩ (fun w k hk => by cases hk) (fun w' hw' => ?_)
        (fun w' hw' => by cases hw') (fun w' hw' => by cases hw') (fun w' hw' => ?_)
        (fun w' hw' => ?_)
      · have hlt : w' < q.workers + 1 := hw'
        by_cases heq : w' = q.workers
        · exact Or.inr (Or.inl (List.mem_append_right _ (by simp [heq])))
        · rcases h.workers w' (by omega) with hin | hin | hin
          · rw [hnone] at hin
            cases hin
          · exact Or.inr (Or.inl (List.mem_append_left _ hin))
          · exact Or.inr (Or.inr hin)
      · have hle : q.workers + 1 ≤ w' := hw'
        exact h.clear w' (by omega)
      · rcases List.mem_append.1 hw' with hw' | hw'
        · exact Nat.lt_succ_of_lt (h.born w' hw')
        · exact List.mem_singleton.1 hw' ▸ Nat.lt_succ_self _
  · rename_i hdead
    have hdead' : q.dead = false := by simpa using hdead
    have hnew : q.workers ∉ q.killed := fun hin => Nat.lt_irrefl _ (h.born _ hin)
    have hoff : q.stage.onWorker = none := by rw [hst]; rfl
    have hposts : ∀ p ∈ q.posts, p ∈ q.posts ++ [(q.workers, Post.load)] :=
      fun p hp => List.mem_append_left _ hp
    refine ⟨fun hb => ?_, fun hn hne => ?_, ?_, ?_, fun d hd => ?_, fun w' hw' => ?_, fun w' hw' => ?_,
      fun d hd => (by cases hd), fun w' hw' => ?_, fun w' d hd => (by cases hd),
      fun w' d hd => (by cases hd), fun w' hw' => ?_, fun w' hw' => ?_, fun w' hw' => ?_,
      fun s hs w' k hk => ?_, ?_, fun w' d hd => ?_⟩
    · simpa [post, owed, WorkStage.call, hst] using h.unbuilt hb
    · exact h.first (hcall.trans hn) (by rw [hst]; simp)
    · simpa [post, owed, WorkStage.call, hst] using h.custody
    · have hload : [(q.workers, Post.load)].filterMap Post.callOf = [] := rfl
      simpa [post, posted, hload, unposted, owed, WorkStage.call, WorkStage.onWorker, hst] using h.inOrder
    · have hd' : d ∈ q.posted := by simpa [post, posted, Post.callOf] using hd
      rcases h.single d hd' with hin | hin
      · exact Or.inl hin
      · rw [hoff] at hin
        cases hin
    · have hlt : w' < q.workers + 1 := hw'
      by_cases heq : w' = q.workers
      · exact Or.inl (by rw [heq]; rfl)
      · rcases h.workers w' (by omega) with hin | hin | hin
        · rw [hnone] at hin
          cases hin
        · exact Or.inr (Or.inl hin)
        · exact Or.inr (Or.inr hin)
    · obtain rfl : q.workers = w' := Option.some.inj hw'
      exact ⟨Nat.lt_succ_self _, hdead', fun _ => hnew⟩
    · obtain rfl : q.workers = w' := Option.some.inj hw'
      exact ⟨Nat.lt_succ_self _, fun _ => rfl⟩
    · obtain rfl : q.workers = w' := Option.some.inj hw'
      exact h.clear q.workers (le_refl _)
    · have hle : q.workers + 1 ≤ w' := hw'
      exact h.clear w' (by omega)
    · exact Nat.lt_succ_of_lt (h.born w' hw')
    · obtain ⟨h1, h2⟩ := h.own s hs w' k hk
      exact ⟨h1, hposts _ h2⟩
    · simpa [post, hdead'] using h.quiet
    · obtain ⟨rfl, -⟩ := WorkStage.loading.inj hd
      exact Or.inr hnew

theorem Kept.ready {o : Option ModuleCall} (h : q.Kept) (hst : q.stage = .loading w o) (scratch : Nat) :
    Kept { q with
      scratchSize := scratch
      stage := .loaded w o } := by
  have := h.stage (x := .loaded w o) (by rw [hst]; rfl) (by rw [hst]; rfl) rfl (Or.inr (by rw [hst]; simp))
    (fun c hc => by cases hc) (fun w' hw' => by rw [hst]; exact hw') (fun w c hc => by cases hc)
    (fun w c hc => by cases hc)
  exact { this with }

theorem Kept.loadEnd {o : Option ModuleCall} (h : q.Kept) (hst : q.stage = .loaded w o) :
    (q.loadEnd w o).Kept := by
  unfold ModuleRef.loadEnd
  split
  · rename_i hdead
    cases o with
    | none =>
      have hb := h.first (by rw [hst]; rfl) (by rw [hst]; simp)
      have := (h.unbuilt hb).2.2
      rw [hdead] at this
      cases this
    | some c => exact h.loadKilled (Or.inr hst)
  · rename_i hdead
    simp only [Bool.not_eq_true] at hdead
    cases o with
    | none =>
      have hcall : q.stage.call = none := by rw [hst]; rfl
      have hk := h.settleNone hcall
      have hb := h.first hcall (by rw [hst]; simp)
      exact { hk with
        unbuilt := fun hf => by cases hf
        first := fun _ hne => absurd rfl hne
        attached := fun w' hw' => ⟨(h.attached w' hw').1, (h.attached w' hw').2.1, fun _ =>
          (h.attached w' hw').2.2 (Or.inr (by rw [hst]; simp))⟩ }
    | some c =>
      exact h.stage (x := .resuming w c) (by rw [hst]; rfl) (by rw [hst]; rfl) rfl
        (Or.inr (by rw [hst]; simp)) (fun c hc => by cases hc) (fun w' hw' => by rw [hst]; exact hw')
        (fun w c _ => hdead) (fun w c hc => by cases hc)

theorem Kept.callModule (h : q.Kept) (hb : q.built = true) (length : Nat)
    (deadlineMs : Option (Option Nat)) : (q.callModule length deadlineMs).Kept := by
  have hunposted : ∀ d ∈ q.unposted, d ∈ q.owed := by
    intro d hd
    unfold unposted at hd
    split at hd
    · exact hd
    · rw [owed, List.map_append]
      exact List.mem_append_right _ hd
  have hrange : ∀ d, d ∈ q.settled.map Prod.fst ∨ d ∈ q.owed → d < q.calls := by
    intro d hd
    exact List.mem_range.1 (h.custody.subset (List.mem_append.2 hd))
  have hon : ∀ d, q.stage.onWorker = some d → d ∈ q.owed := by
    intro d hd
    cases hs : q.stage with
    | posted w' c' =>
      rw [hs] at hd
      have : c'.call = d := Option.some.inj hd
      rw [← this, owed_call (c := c') (by rw [hs]; rfl)]
      exact List.mem_cons_self
    | idle => rw [hs] at hd; cases hd
    | spawning c' => rw [hs] at hd; cases hd
    | loading w' c' => rw [hs] at hd; cases hd
    | loaded w' c' => rw [hs] at hd; cases hd
    | resuming w' c' => rw [hs] at hd; cases hd
  have hnew : ∀ d ∈ q.posted ++ q.unposted, d < q.calls := by
    intro d hd
    rcases List.mem_append.1 hd with hd | hd
    · exact hrange d ((h.single d hd).imp_right (hon d))
    · exact hrange d (Or.inr (hunposted d hd))
  unfold ModuleRef.callModule
  simp only
  split
  · -- refused for its size, with no turn in the chain
    refine { h with
      unbuilt := fun hf => by cases hb.symm.trans hf
      custody := ?_
      single := fun d hd => ?_
      own := fun s hs => ?_ }
    · have hperm : ((q.settled.map Prod.fst ++ [q.calls]) ++ q.owed).Perm
          ((q.settled.map Prod.fst ++ q.owed) ++ [q.calls]) := by
        rw [List.append_assoc, List.append_assoc]
        exact List.Perm.append_left _ (List.perm_append_comm)
      have : (List.range (q.calls + 1)) = List.range q.calls ++ [q.calls] := List.range_succ
      simp only [ModuleRef.settle, List.map_append, List.map_cons, List.map_nil, this]
      exact hperm.trans (h.custody.append_right _)
    · rcases h.single d hd with hin | hin
      · exact Or.inl (by simp only [ModuleRef.settle, List.map_append]; exact List.mem_append_left _ hin)
      · exact Or.inr hin
    · rcases List.mem_append.1 hs with hs | hs
      · exact h.own s hs
      · obtain rfl := List.mem_singleton.1 hs
        exact fun w' k hk => by cases hk
  · have howed : owed { { q with calls := q.calls + 1 } with
        tail := q.tail ++ [⟨q.calls, deadlineMs.getD q.deadlineMs⟩] } = q.owed ++ [q.calls] := by
      simp [owed]
    have hun : unposted { { q with calls := q.calls + 1 } with
        tail := q.tail ++ [⟨q.calls, deadlineMs.getD q.deadlineMs⟩] } = q.unposted ++ [q.calls] := by
      simp only [unposted]
      split
      · exact howed
      · simp
    refine { h with
      unbuilt := fun hf => by cases hb.symm.trans hf
      custody := ?_
      inOrder := ?_ }
    · have : (List.range (q.calls + 1)) = List.range q.calls ++ [q.calls] := List.range_succ
      rw [howed, this, ← List.append_assoc]
      exact h.custody.append_right _
    · rw [hun, ← List.append_assoc]
      refine List.pairwise_append.2 ⟨h.inOrder, List.pairwise_singleton _ _, fun d hd e he => ?_⟩
      obtain rfl := List.mem_singleton.1 he
      exact hnew d hd

theorem Kept.next (h : q.Kept) (hidle : q.stage = .idle) {rest : List ModuleCall}
    (htail : q.tail = c :: rest) : ({ q with tail := rest }.call c).Kept := by
  unfold ModuleRef.call
  split
  · rename_i hdead
    have hdead' : q.dead = true := hdead
    have hworker : q.worker = none := by
      cases hw : q.worker with
      | none => rfl
      | some w' =>
        have := (h.attached w' hw).2.1
        rw [hdead'] at this
        cases this
    have hk := h.take (x := .spawning (some c)) hidle htail rfl rfl (fun _ _ => hworker)
      (fun w hw => by cases hw) (fun w d hd => by cases hd) (fun w d hd => by cases hd)
    refine hk.finish (c := c) (a := .failed) (r := MODULE_FAILED) rfl rfl hidle
      ⟨rfl, rfl, rfl, rfl, rfl⟩ (fun w k hk => by cases hk) h.workers (fun w' hw' => ?_)
      (fun w' hw' => ?_) h.clear h.born
    · cases hworker.symm.trans hw'
    · cases hworker.symm.trans hw'
  · rename_i hdead
    have hdead' : q.dead = false := by simpa using hdead
    split
    · rename_i w' hw
      have hk := h.take (x := .resuming w' c) hidle htail rfl rfl (fun d hd => by cases hd)
        (fun w'' hw'' => hw'' ▸ hw) (fun _ _ _ => hdead') (fun w d hd => by cases hd)
      exact hk.exchange rfl
    · rename_i hw
      exact h.take (x := .spawning (some c)) hidle htail rfl rfl (fun _ _ => hw)
        (fun w hw => by cases hw) (fun w d hd => by cases hd) (fun w d hd => by cases hd)

theorem Kept.expire (h : q.Kept) : q.expire.Kept := by
  unfold ModuleRef.expire
  split
  · rename_i w o hst
    split
    · exact h
    · exact h.loadKilled (Or.inl hst)
  · rename_i w c hst
    split
    · exact h
    · have hworker := (h.staged w (by rw [hst]; rfl)).2 (h.flying w c hst).1
      simp only [answer, hst]
      refine h.finish (c := c) (a := .late) (by rw [hst]; rfl) rfl rfl ⟨rfl, rfl, rfl, rfl, rfl⟩
        (fun w k hk => by cases hk) (fun w' hw' => ?_) (fun w' hw' => by cases hw')
        (fun w' hw' => by cases hw') h.clear (fun w' hw' => ?_)
      · rcases h.workers w' hw' with hin | hin | hin
        · rw [hworker] at hin
          exact Or.inr (Or.inl (List.mem_append_right _ (by simp [Option.some.inj hin])))
        · exact Or.inr (Or.inl (List.mem_append_left _ hin))
        · exact Or.inr (Or.inr hin)
      · rcases List.mem_append.1 hw' with hw' | hw'
        · exact h.born w' hw'
        · exact List.mem_singleton.1 hw' ▸ (h.attached w hworker).1
  · exact h

/-- The worker is let go, with no call on it. -/
theorem Kept.detach {k y : List Nat} {d : Bool} (h : q.Kept) (hb : q.built = true)
    (hposted : ∀ w c, q.stage ≠ .posted w c) (hresuming : ∀ w c, q.stage ≠ .resuming w c)
    (hstaged : d = true ∨ q.stage.worker = none)
    (htimed : ∀ w c, q.stage = .loading w (some c) → q.deadlineMs ≠ none)
    (hworkers : ∀ w, w < q.workers → w ∈ k ∨ w ∈ y) (hborn : ∀ w ∈ k, w < q.workers) :
    Kept { q with
      worker := none
      killed := k
      crashed := y
      dead := d } := by
  refine { h with
    unbuilt := fun hf => by cases hb.symm.trans hf
    workers := fun w' hw' => Or.inr (hworkers w' hw')
    attached := fun w' hw' => by cases hw'
    idle := fun _ _ => rfl
    staged := fun w' hw' => ⟨(h.staged w' hw').1, fun hd => ?_⟩
    flying := fun w' c' hc' => absurd hc' (hposted w' c')
    resumed := fun w' c' hc' => absurd hc' (hresuming w' c')
    inbox := fun w' hw' => by cases hw'
    born := hborn
    timed := fun w' c' hc' => Or.inl (htimed w' c' hc') }
  rcases hstaged with hd' | hs
  · cases hd'.symm.trans hd
  · cases hs.symm.trans hw'

theorem Kept.error (h : q.Kept) (hmicro : q.inMicrotasks = false) (w : Nat) : (q.error w).Kept := by
  unfold ModuleRef.error
  split
  · rename_i w' o hst
    split
    · rename_i heq
      subst heq
      exact h.loadKilled (Or.inl hst)
    · exact h
  · rename_i hloading
    split
    · rename_i hcond
      obtain ⟨hb, hw⟩ := hcond
      have hworkers : ∀ w', w' < q.workers → w' ∈ q.killed ∨ w' ∈ q.crashed ++ [w] := by
        intro w' hw'
        rcases h.workers w' hw' with hin | hin | hin
        · rw [hw] at hin
          exact Or.inr (List.mem_append_right _ (by simp [Option.some.inj hin]))
        · exact Or.inl hin
        · exact Or.inr (List.mem_append_left _ hin)
      cases hs : q.stage with
      | idle =>
        simp only [answer, hs]
        have := h.detach (k := q.killed) (y := q.crashed ++ [w]) (d := q.dead) hb (by simp [hs])
          (by simp [hs]) (Or.inr (by rw [hs]; rfl)) (by simp [hs]) hworkers h.born
        rw [hs] at this
        exact this
      | spawning c =>
        cases hw.symm.trans (h.idle c hs)
      | loading w' c => exact absurd hs (hloading w' c)
      | loaded w' c => simp [inMicrotasks, hs] at hmicro
      | resuming w' c => simp [inMicrotasks, hs] at hmicro
      | posted w' c =>
        simp only [answer, hs]
        exact h.finish (c := c) (a := .failed) (r := MODULE_FAILED) (by rw [hs]; rfl) rfl rfl
          ⟨rfl, rfl, rfl, rfl, rfl⟩ (fun w k hk => by cases hk) (fun w' hw' => Or.inr (hworkers w' hw'))
          (fun w' hw' => by cases hw') (fun w' hw' => by cases hw') h.clear h.born
    · exact h

/-- The workers once the module is released. -/
theorem Kept.released (h : q.Kept) :
    (∀ w, w < q.workers → w ∈ q.killed ++ q.worker.toList ∨ w ∈ q.crashed) ∧
      ∀ w ∈ q.killed ++ q.worker.toList, w < q.workers := by
  constructor
  · intro w hw
    rcases h.workers w hw with hin | hin | hin
    · exact Or.inl (List.mem_append_right _ (by simp [hin]))
    · exact Or.inl (List.mem_append_left _ hin)
    · exact Or.inr hin
  · intro w hw
    rcases List.mem_append.1 hw with hw | hw
    · exact h.born w hw
    · exact (h.attached w (by simpa using hw)).1

theorem teardown_eq : q.teardown =
    { { q with dead := true }.answer .failed MODULE_FAILED with
      worker := none
      killed := q.killed ++ q.worker.toList } := by
  cases hw : q.worker <;> cases hs : q.stage <;>
    simp [ModuleRef.teardown, answer, settle, kill, hw, hs]

theorem Kept.teardown (h : q.Kept) (hb : q.built = true) (hresuming : ∀ w c, q.stage ≠ .resuming w c)
    (htimed : ∀ w c, q.stage = .loading w c → q.deadlineMs ≠ none) : q.teardown.Kept := by
  obtain ⟨hworkers, hborn⟩ := h.released
  rw [teardown_eq]
  by_cases hp : ∃ w c, q.stage = .posted w c
  · obtain ⟨w, c, hs⟩ := hp
    simp only [answer, hs]
    exact h.finish (c := c) (a := .failed) (r := MODULE_FAILED) (by rw [hs]; rfl) rfl rfl
      ⟨rfl, rfl, rfl, rfl, rfl⟩ (fun w k hk => by cases hk) (fun w' hw' => Or.inr (hworkers w' hw'))
      (fun w' hw' => by cases hw') (fun w' hw' => by cases hw') h.clear hborn
  · have hsame : { q with dead := true }.answer .failed MODULE_FAILED = { q with dead := true } := by
      unfold answer
      split
      · rename_i w c hs
        exact absurd ⟨w, c, hs⟩ hp
      · rfl
    rw [hsame]
    exact h.detach (d := true) hb (fun w c hs => hp ⟨w, c, hs⟩) hresuming (Or.inl rfl)
      (fun w c hs => htimed w _ hs) hworkers hborn

theorem Kept.result (h : q.Kept) (w : Nat) (bytes : Option Bytes) (ms : Nat) :
    (q.result w bytes ms).Kept := by
  unfold ModuleRef.result
  split
  · exact h
  · rename_i k rest hin
    simp only
    split
    · rename_i hw
      have hw' : q.worker = some w := hw
      have hbox := h.inbox w hw'
      rw [hin] at hbox
      cases hs : q.stage with
      | posted w' c =>
        rw [hs] at hbox
        obtain ⟨rfl, rfl⟩ : k = c.call ∧ rest = [] := by
          simpa [WorkStage.onWorker] using hbox
        have hww : q.worker = some w' := (h.staged w' (by rw [hs]; rfl)).2 (h.flying w' c hs).1
        obtain rfl : w = w' := Option.some.inj (hw'.symm.trans hww)
        simp only [answer]
        refine h.finish (c := c) (a := .result w c.call) (r := ⟨bytes, ms⟩) (by rw [hs]; rfl) rfl rfl
          ⟨rfl, rfl, rfl, rfl, rfl⟩ (fun w'' k hk => ?_) h.workers (fun w'' hw'' => ?_)
          (fun w'' hw'' => ?_) (fun w'' hw'' => ?_) h.born
        · obtain ⟨rfl, rfl⟩ := SettledHow.result.inj hk
          exact ⟨rfl, (h.flying w c hs).2⟩
        · obtain ⟨h1, h2, h3⟩ := h.attached w'' hw''
          exact ⟨h1, h2, h3 (Or.inr (by rw [hs]; simp))⟩
        · obtain rfl : w = w'' := Option.some.inj (hw'.symm.trans hw'')
          simp [ModuleRef.settle]
        · have hne : w'' ≠ w := by
            have := (h.attached w hw').1
            have hle : q.workers ≤ w'' := hw''
            omega
          simp only [ModuleRef.settle, Function.update_of_ne hne]
          exact h.clear w'' hw''
      | idle => rw [hs] at hbox; cases hbox
      | spawning c => rw [hs] at hbox; cases hbox
      | loading w' c => rw [hs] at hbox; cases hbox
      | loaded w' c => rw [hs] at hbox; cases hbox
      | resuming w' c => rw [hs] at hbox; cases hbox
    · -- a worker that is not attached any more
      rename_i hw
      have hw' : q.worker ≠ some w := hw
      refine { h with
        inbox := fun w' hw'' => ?_
        clear := fun w' hw'' => ?_ }
      · have hne : w' ≠ w := by
          rintro rfl
          exact hw' hw''
        simp only [Function.update_of_ne hne]
        exact h.inbox w' hw''
      · have hne : w' ≠ w := by
          rintro rfl
          rw [h.clear w' hw''] at hin
          cases hin
        simp only [Function.update_of_ne hne]
        exact h.clear w' hw''

end Moves

/-! ### Runs -/

/-- The condition on a step: the module is not released while a load for a call is cut off
without a timer, nor between a load's end and its call. -/
def Meets (q : ModuleRef) : Event → Prop
  | .teardown => (∀ w c, q.stage ≠ .resuming w c) ∧
    ∀ w c, q.stage = .loading w c → q.deadlineMs ≠ none
  | _ => True

theorem Kept.step {q : ModuleRef} (h : q.Kept) (e : Event) (hm : q.Meets e) : (q.step e).Kept := by
  cases e with
  | callModule length deadlineMs =>
    simp only [ModuleRef.step]
    split
    · rename_i hb
      exact h.callModule hb length deadlineMs
    · exact h
  | teardown =>
    simp only [ModuleRef.step]
    split
    · rename_i hb
      exact h.teardown hb hm.1 hm.2
    · exact h
  | next =>
    simp only [ModuleRef.step]
    split
    · rename_i c rest hidle htail
      exact h.next hidle htail
    · rename_i w c hst
      exact h.loadEnd hst
    · rename_i w c hst
      exact h.exchange hst
    · exact h
  | spawned =>
    simp only [ModuleRef.step]
    split
    · rename_i c hst
      exact h.spawned hst
    · exact h
  | spawnFailed =>
    simp only [ModuleRef.step]
    split
    · rename_i c hst
      exact h.spawnFailed hst
    · exact h
  | ready w scratchSize =>
    simp only [ModuleRef.step]
    split
    · rename_i w' c hst
      split
      · rename_i heq
        subst heq
        exact h.ready hst scratchSize
      · exact h
    · exact h
  | loadError w =>
    simp only [ModuleRef.step]
    split
    · rename_i w' c hst
      split
      · rename_i heq
        subst heq
        exact h.loadKilled (Or.inl hst)
      · exact h
    · exact h
  | result w bytes ms =>
    simp only [ModuleRef.step]
    split
    · exact h
    · exact h.result w bytes ms
  | error w =>
    simp only [ModuleRef.step]
    split
    · exact h
    · rename_i hmicro
      exact h.error (by simpa using hmicro) w
  | expire => exact h.expire

def MeetsAll (q : ModuleRef) : List Event → Prop
  | [] => True
  | e :: es => q.Meets e ∧ MeetsAll (q.step e) es

theorem Kept.run {q : ModuleRef} (h : q.Kept) (es : List Event) (hm : q.MeetsAll es) :
    (q.run es).Kept := by
  induction es generalizing q with
  | nil => exact h
  | cons e es ih => exact ih (h.step e hm.1) hm.2

/-- What settles the call a stage is for, besides the module's release: the end of a spawn or
a microtask, a timer, or a worker that was posted to and was not killed. -/
def Awaits (q : ModuleRef) : Prop :=
  match q.stage with
  | .idle => True
  | .spawning _ => True
  | .loading w _ => q.deadlineMs ≠ none ∨ w ∉ q.killed
  | .loaded _ _ => True
  | .resuming _ _ => True
  | .posted w c => c.bound ≠ none ∨ (q.worker = some w ∧ w ∉ q.killed ∧ q.inbox w = [c.call])

/-- Workers answer their own call only. -/
structure Right (q : ModuleRef) : Prop where
  once : (q.settled.map Prod.fst).Nodup
  /-- A call not settled is in the chain, and what the chain is at comes to an end. -/
  owed : ∀ c, c < q.calls → c ∉ q.settled.map Prod.fst → c ∈ q.owed
  awaits : q.built = true → q.Awaits
  /-- The timer settles its call. -/
  expires : ∀ w c, (q.stage = .loading w (some c) ∧ q.deadlineMs ≠ none) ∨
    (q.stage = .posted w c ∧ c.bound ≠ none) → c.call ∈ (q.expire.settled.map Prod.fst)
  inOrder : q.posted.Pairwise (· < ·)
  /-- One call is on a worker at a time. -/
  single : ∀ c ∈ q.posted, ∀ d ∈ q.posted, c ∉ q.settled.map Prod.fst →
    d ∉ q.settled.map Prod.fst → c = d
  own : ∀ s ∈ q.settled, ∀ w k, s.2.1 = .result w k → k = s.1 ∧ (w, .call s.1) ∈ q.posts
  detached : q.dead = true → q.worker = none
  /-- Once the module is released, every worker was killed, or crashed after its load. -/
  killed : q.dead = true → ∀ w, w < q.workers → w ∈ q.killed ∨ w ∈ q.crashed
  quiet : q.latePosts = []

theorem Kept.right {q : ModuleRef} (h : q.Kept) : q.Right where
  once := (List.nodup_append.1 (h.custody.nodup_iff.2 List.nodup_range)).1
  owed := by
    intro c hc hout
    have := h.custody.symm.subset (List.mem_range.2 hc)
    exact (List.mem_append.1 this).resolve_left hout
  awaits := by
    intro hb
    unfold Awaits
    split
    · trivial
    · trivial
    · rename_i w o hst
      cases o with
      | none =>
        have := h.first (by rw [hst]; rfl) (by rw [hst]; simp)
        cases this.symm.trans hb
      | some c => exact h.timed w c hst
    · trivial
    · trivial
    · rename_i w c hst
      have hw := (h.staged w (by rw [hst]; rfl)).2 (h.flying w c hst).1
      refine Or.inr ⟨hw, (h.attached w hw).2.2 (Or.inl hb), ?_⟩
      rw [h.inbox w hw, hst]
      rfl
  expires := by
    rintro w c (⟨hst, hd⟩ | ⟨hst, hd⟩)
    · simp [ModuleRef.expire, hst, hd, loadFailed, settle]
    · cases hb : c.bound with
      | none => exact absurd hb hd
      | some bound => simp [ModuleRef.expire, hst, hb, answer, settle, kill]
  inOrder := (List.pairwise_append.1 h.inOrder).1
  single := by
    intro c hc d hd hcs hds
    have h1 := (h.single c hc).resolve_left hcs
    have h2 := (h.single d hd).resolve_left hds
    exact Option.some.inj (h1.symm.trans h2)
  own := h.own
  detached := by
    intro hd
    cases hw : q.worker with
    | none => rfl
    | some w => cases hd.symm.trans (h.attached w hw).2.1
  killed := by
    intro hd w hw
    refine (h.workers w hw).resolve_left fun hin => ?_
    cases hd.symm.trans (h.attached w hin).2.1
  quiet := h.quiet

/-! ### Crashes -/

/-- The engine of a worker in use fails once its load is over. -/
def Crashes (q : ModuleRef) : Event → Prop
  | .error w => q.built = true ∧ q.worker = some w ∧ ∀ w' c, q.stage ≠ .loading w' c
  | _ => False

/-- No step of a run is a crash. -/
def Uncrashed (q : ModuleRef) : List Event → Prop
  | [] => True
  | e :: es => ¬ q.Crashes e ∧ Uncrashed (q.step e) es

theorem loadFailed_crashed (c : Option ModuleCall) (q : ModuleRef) :
    (q.loadFailed c).crashed = q.crashed := by
  cases c <;> rfl

theorem answer_crashed (how : SettledHow) (r : ModuleResult) (q : ModuleRef) :
    (q.answer how r).crashed = q.crashed := by
  unfold answer
  split <;> rfl

theorem step_crashed {q : ModuleRef} {e : Event} (h : ¬ q.Crashes e) :
    (q.step e).crashed = q.crashed := by
  cases e with
  | callModule length deadlineMs =>
    simp only [step, callModule]
    split
    · split <;> rfl
    · rfl
  | teardown =>
    simp only [step]
    split
    · rw [teardown_eq]
      exact answer_crashed _ _ _
    · rfl
  | next =>
    simp only [step]
    split
    · unfold call
      split
      · rfl
      · split <;> rfl
    · unfold loadEnd
      split
      · exact loadFailed_crashed _ _
      · split <;> rfl
    · rfl
    · rfl
  | spawned =>
    simp only [step]
    split
    · unfold spawned
      simp only
      split
      · exact loadFailed_crashed _ _
      · rfl
    · rfl
  | spawnFailed =>
    simp only [step]
    split
    · exact loadFailed_crashed _ _
    · rfl
  | ready w scratchSize =>
    simp only [step]
    split
    · split <;> rfl
    · rfl
  | loadError w =>
    simp only [step]
    split
    · split
      · exact loadFailed_crashed _ _
      · rfl
    · rfl
  | result w bytes ms =>
    simp only [step]
    split
    · rfl
    · unfold result
      split
      · rfl
      · simp only
        split
        · exact answer_crashed _ _ _
        · rfl
  | error w =>
    simp only [step]
    split
    · rfl
    · unfold error
      split
      · split
        · exact loadFailed_crashed _ _
        · rfl
      · rename_i hloading
        split
        · rename_i hcond
          exact absurd ⟨hcond.1, hcond.2, hloading⟩ h
        · rfl
  | expire =>
    simp only [step, expire]
    split
    · split
      · rfl
      · exact loadFailed_crashed _ _
    · split
      · rfl
      · exact answer_crashed _ _ _
    · rfl

theorem run_crashed {q : ModuleRef} (es : List Event) (h : q.Uncrashed es) :
    (q.run es).crashed = q.crashed := by
  induction es generalizing q with
  | nil => rfl
  | cons e es ih =>
    have := ih h.2
    rw [step_crashed h.1] at this
    exact this

/-- In a run that does not release the module under a load cut off without a timer, nor
between a load and its call, workers answer their own call only; and unless one of them
crashed, all are killed once the module is released. -/
theorem run_right (d : Option Nat) (es : List Event) (hm : (spawn d).MeetsAll es) :
    ((spawn d).run es).Right ∧
      ((spawn d).Uncrashed es → ((spawn d).run es).dead = true →
        ∀ w, w < ((spawn d).run es).workers → w ∈ ((spawn d).run es).killed) := by
  have hr := ((kept_spawn d).run es hm).right
  refine ⟨hr, fun hu hd w hw => (hr.killed hd w hw).resolve_right fun hin => ?_⟩
  rw [run_crashed es hu] at hin
  cases hin

/-- A call times out, the next reloads, and its answer comes. -/
def reloadRun : List Event :=
  [.spawned, .ready 0 64, .next, .callModule 1 (some (some 5)), .next, .expire, .callModule 1 none, .next,
    .spawned, .ready 1 64, .next, .next, .result 0 none 3, .result 1 (some [7]) 2, .teardown]

theorem reloadRun_right :
    (spawn none).MeetsAll reloadRun ∧ (spawn none).Uncrashed reloadRun ∧
      ((spawn none).run reloadRun).settled =
        [(0, .late, ⟨none, 5⟩), (1, .result 1 1, ⟨some [7], 2⟩)] ∧
      ((spawn none).run reloadRun).Right ∧
      ∀ w, w < ((spawn none).run reloadRun).workers → w ∈ ((spawn none).run reloadRun).killed := by
  have hm : (spawn none).MeetsAll reloadRun := by
    refine ⟨trivial, trivial, trivial, trivial, trivial, trivial, trivial, trivial, trivial, trivial,
      trivial, trivial, trivial, trivial, ⟨fun w c h => ?_, fun w c h => ?_⟩, trivial⟩
    · cases h
    · cases h
  have hu : (spawn none).Uncrashed reloadRun := by
    refine ⟨id, id, id, id, id, id, id, id, id, id, id, id, id, id, id, trivial⟩
  obtain ⟨h1, h2⟩ := run_right none reloadRun hm
  exact ⟨hm, hu, by decide, h1, h2 hu (by decide)⟩

/-- Under a table with no deadline a call times out, and the module is released while the next
one reloads. -/
def hangRun : List Event :=
  [.spawned, .ready 0 64, .next, .callModule 1 (some (some 5)), .next, .expire, .callModule 1 none, .next,
    .spawned, .teardown]

/-- That call has nothing left to settle it: its worker is killed, and its load has no
timer. -/
theorem hangRun_stranded : ¬ ∀ d es, ((spawn d).run es).Right := by
  intro h
  have := (h none hangRun).awaits (by decide)
  have hs : ((spawn none).run hangRun).stage = .loading 1 (some ⟨1, none⟩) := by decide
  simp only [Awaits, hs] at this
  revert this
  decide

end ModuleRef

end SeedTransport
