import SeedTransport.Host.Loader

set_option autoImplicit false

namespace SeedTransport

/-! What every boot, trial and commit of a host keeps to, over any number of processes and
wherever one of them dies. -/

open Async Async.Prog

namespace Loader

/-! ### The marks of a trial -/

/-- A mark that ends what was under way before it. -/
def starts : LoaderMark → Bool
  | .process => true
  | .boot _ _ _ _ _ _ => true
  | _ => false

/-- What happened before the next boot. -/
def segment (b : List LoaderMark) : List LoaderMark := b.takeWhile fun m => !starts m

/-- The boot that `b` follows ended without serving. -/
def Idled (b : List LoaderMark) : Prop := .ended false ∈ segment b

/-- The mark is a boot of the staging `i`. -/
def Boots (i : Nat) : LoaderMark → Prop
  | .boot _ _ trial _ _ _ => trial = some i
  | _ => False

/-- The staging was booted, and that boot did not end without serving. -/
def Spent (marks : List LoaderMark) (i : Nat) : Prop :=
  ∃ a m b, marks = a ++ m :: b ∧ Boots i m ∧ ¬Idled b

/-- Every boot of a staging but the last ended without serving. -/
def Once (marks : List LoaderMark) : Prop :=
  ∀ a b c m m' i, marks = a ++ m :: (b ++ m' :: c) → Boots i m → Boots i m' → Idled b

theorem Idled.append {b : List LoaderMark} (h : Idled b) (c : List LoaderMark) : Idled (b ++ c) := by
  unfold Idled segment at *
  rw [List.takeWhile_append]
  split
  · exact List.mem_append_left _ ((List.takeWhile_prefix _).subset h)
  · exact h

theorem idled_of_mem {b : List LoaderMark} (hb : ∀ m ∈ b, starts m = false)
    (h : LoaderMark.ended false ∈ b) : Idled b := by
  unfold Idled segment
  rwa [List.takeWhile_eq_self_iff.2 fun m hm => by simp [hb m hm]]

theorem split_snoc {marks a c : List LoaderMark} {m x : LoaderMark}
    (h : marks ++ [m] = a ++ x :: c) :
    c = [] ∧ a = marks ∧ x = m ∨ ∃ c', c = c' ++ [m] ∧ marks = a ++ x :: c' := by
  rcases List.eq_nil_or_concat c with rfl | ⟨c', y, rfl⟩
  · have := List.append_inj' h rfl
    exact .inl ⟨rfl, this.1.symm, by simpa using this.2.symm⟩
  · have h' : marks ++ [m] = (a ++ x :: c') ++ [y] := by simpa using h
    have := List.append_inj' h' rfl
    exact .inr ⟨c', by simpa using this.2.symm, this.1⟩

theorem Spent.of_snoc {marks : List LoaderMark} {m : LoaderMark} {i : Nat}
    (h : Spent (marks ++ [m]) i) : Spent marks i ∨ Boots i m := by
  obtain ⟨a, x, b, he, hx, hb⟩ := h
  rcases split_snoc he with ⟨rfl, rfl, rfl⟩ | ⟨c', rfl, rfl⟩
  · exact .inr hx
  · exact .inl ⟨a, x, c', rfl, hx, fun hi => hb (hi.append _)⟩

theorem Once.snoc {marks : List LoaderMark} (h : Once marks) {m : LoaderMark}
    (hm : ∀ i, Boots i m → ¬Spent marks i) : Once (marks ++ [m]) := by
  intro a b c x y i he hx hy
  have he' : marks ++ [m] = (a ++ x :: b) ++ y :: c := by simpa using he
  rcases split_snoc he' with ⟨-, hmarks, rfl⟩ | ⟨c', -, hmarks⟩
  · by_contra hb
    exact hm i hy ⟨a, x, b, hmarks.symm, hx, hb⟩
  · exact h a b c' x y i (by simpa using hmarks) hx hy

/-! ### The rules of a boot and of a commit -/

variable (readHostBlob : Bytes → Option HostManifest)

/-- The blob of a slot a loader of this ABI takes. -/
def peek (f : HostFiles) (name : SlotName) : Option HostSlot :=
  match f.read name with
  | none => none
  | some env =>
    match readHostBlob env with
    | none => none
    | some m => if m.abi = PLATFORM_ABI then some ⟨env, m.version⟩ else none

/-- The floor of a boot. -/
def floorOf (genesis : HostSlot) (f : HostFiles) : HostSlot :=
  newer genesis (peek readHostBlob f .committed)

/-- A boot runs the floor, or a pending blob above it whose mark is on disk; with `--host`,
that blob. -/
def BootOk (env : Bytes) (trial : Option Nat) (fixed : Option Bytes) (genesis : HostSlot)
    (f : HostFiles) : Prop :=
  match fixed with
  | some blob => env = blob ∧ trial = none
  | none =>
    trial = none ∧ env = (floorOf readHostBlob genesis f).env ∨
      trial = some f.staging ∧ f.pending = some env ∧ f.tried = true ∧
        ∃ m, readHostBlob env = some m ∧ (floorOf readHostBlob genesis f).version < m.version

/-- A commit follows a boot of the same blob on trial, that ended serving, whose window has
passed, and that has not failed. -/
def CommitOk (before : List LoaderMark) (env : Bytes) : Prop :=
  ∃ a gen i fixed genesis f b, before = a ++ .boot gen env (some i) fixed genesis f :: (b ++ [.window gen]) ∧
    (∀ m ∈ b, starts m = false) ∧ LoaderMark.failed ∉ b ∧ .ended true ∈ b

def MarkOk (before : List LoaderMark) : LoaderMark → Prop
  | .boot _ env trial fixed genesis f => BootOk readHostBlob env trial fixed genesis f
  | .committed env => CommitOk before env
  | _ => True

/-- Every mark is as it must be after those before it. -/
def History (marks : List LoaderMark) : Prop :=
  ∀ a m c, marks = a ++ m :: c → MarkOk readHostBlob a m

theorem History.snoc {marks : List LoaderMark} (h : History readHostBlob marks) {m : LoaderMark}
    (hm : MarkOk readHostBlob marks m) : History readHostBlob (marks ++ [m]) := by
  intro a x c he
  rcases split_snoc he with ⟨-, rfl, rfl⟩ | ⟨c', -, hmarks⟩
  · exact hm
  · exact h a x c' hmarks

/-- What is on disk, and what was done to it: all of this holds wherever a process dies. -/
structure Disk (s : LoaderState) : Prop where
  committed : ∀ env, s.files.committed = some env → .committed env ∈ s.marks ∧
    ∃ m, readHostBlob env = some m ∧ m.abi = PLATFORM_ABI
  top : ∀ e, .committed e ∈ s.marks → ∃ env m m', s.files.committed = some env ∧
    readHostBlob env = some m ∧ readHostBlob e = some m' ∧ m'.version ≤ m.version
  pending : ∀ env, s.files.pending = some env →
    ∃ m, readHostBlob env = some m ∧ m.abi = PLATFORM_ABI
  past : ∀ m ∈ s.marks, ∀ i, Boots i m → i ≤ s.files.staging
  marked : s.files.pending ≠ none → Spent s.marks s.files.staging → s.files.tried = true
  once : Once s.marks
  history : History readHostBlob s.marks

/-- `b` is what happened since the boot of `env`, a trial of the staging `i`. -/
def Since (gen i : Nat) (env : Bytes) (marks b : List LoaderMark) : Prop :=
  ∃ a fixed genesis f, marks = a ++ .boot gen env (some i) fixed genesis f :: b ∧
    ∀ m ∈ b, starts m = false

theorem Since.snoc {gen i : Nat} {env : Bytes} {marks b : List LoaderMark} (h : Since gen i env marks b)
    {m : LoaderMark} (hm : starts m = false) : Since gen i env (marks ++ [m]) (b ++ [m]) := by
  obtain ⟨a, fixed, genesis, f, rfl, hb⟩ := h
  refine ⟨a, fixed, genesis, f, by simp, fun x hx => ?_⟩
  rcases List.mem_append.1 hx with hx | hx
  · exact hb x hx
  · rw [List.mem_singleton.1 hx]
    exact hm

/-- The blob on trial, the one of the current boot. -/
structure Trial (l : Loader) (p : HostSlot) (s : LoaderState) : Prop where
  reads : readHostBlob p.env = some ⟨p.version, PLATFORM_ABI⟩
  above : ∀ env m, s.files.committed = some env → readHostBlob env = some m → m.version < p.version
  running : l.running = some p.env
  order : l.trialOf = s.files.staging ∧ s.files.pending = some p.env ∧ s.files.tried = true ∨
    l.trialOf < s.files.staging ∧ s.files.tried = false ∧
      ∃ env m, s.files.pending = some env ∧ readHostBlob env = some m ∧ p.version < m.version
  booted : ∃ b, Since l.gen l.trialOf p.env s.marks b ∧ LoaderMark.failed ∉ b ∧
    (l.gen ∈ l.timers → .ended true ∈ b)

structure Alive (l : Loader) (s : LoaderState) : Prop where
  pinned : l.fixed ≠ none → l.trial = none
  timers : ∀ g ∈ l.timers, g ≤ l.gen
  trial : ∀ p, l.trial = some p → Trial readHostBlob l p s

/-- A loader between two calls. -/
structure Ready (s : LoaderState) : Prop where
  disk : Disk readHostBlob s
  alive : ∀ l, s.loader = some l → Alive readHostBlob l s

/-! ### File operations -/

/-- Nothing else runs while a file operation does; where it waits, a crash leaves `C`. -/
def filing (C : LoaderState → Prop) : Terms LoaderState FileOp Unit where
  ask _ s := s
  answer _ _ s := s
  rely s t := t = s
  yields _ s := C s

section Rules

variable {C : LoaderState → Prop} {E : LoaderState → Prop} {s : LoaderState}

@[simp] theorem wp_op {Q : Unit → LoaderState → Prop} (op : FileOp) :
    (call op : LoaderProg Unit).wp (filing C) Q E s ↔ C s ∧ Q () s ∧ E s := by
  rw [wp_call]
  constructor
  · intro ⟨h, hr⟩
    exact ⟨h, (hr s rfl).1 (), (hr s rfl).2⟩
  · rintro ⟨h, hq, he⟩
    refine ⟨h, ?_⟩
    rintro t rfl
    exact ⟨fun _ => hq, he⟩

@[simp] theorem wp_sure {Q : Unit → LoaderState → Prop} (op : FileOp) :
    (turn op : LoaderProg Unit).wp (filing C) Q E s ↔ C s ∧ Q () s := by
  rw [wp_turn]
  constructor
  · intro ⟨h, hr⟩
    exact ⟨h, hr none s rfl⟩
  · rintro ⟨h, hq⟩
    refine ⟨h, ?_⟩
    rintro a t rfl
    exact hq

@[simp] theorem wp_set {Q : Unit → LoaderState → Prop} (f : Loader → Loader) :
    (set f).wp (filing C) Q E s ↔ Q () { s with loader := s.loader.map f } := Iff.rfl

@[simp] theorem wp_onFiles {Q : Unit → LoaderState → Prop} (f : HostFiles → HostFiles) :
    (onFiles f).wp (filing C) Q E s ↔ Q () { s with files := f s.files } := Iff.rfl

@[simp] theorem wp_mark {Q : Unit → LoaderState → Prop} (m : LoaderMark) :
    (mark m).wp (filing C) Q E s ↔ Q () { s with marks := s.marks ++ [m] } := Iff.rfl

@[simp] theorem wp_self {Q : Loader → LoaderState → Prop} :
    self.wp (filing C) Q E s ↔ (∀ l, s.loader = some l → Q l s) ∧ (s.loader = none → E s) := by
  unfold self
  rw [wp_bind, wp_get, wp_need]

/-- A slot is read as it is, or a read of it fails: a floor that cannot be read throws. -/
theorem wp_load {Q : Option HostSlot → LoaderState → Prop} (name : SlotName) (hC : C s)
    (hQ : Q (peek readHostBlob s.files name) s)
    (hfail : if name = .committed then E s else Q none s) :
    (load readHostBlob name).wp (filing C) Q E s := by
  have handler : (if name = .committed then fail else pure none : LoaderProg (Option HostSlot)).wp
      (filing C) Q E s := by
    by_cases hn : name = .committed
    · rw [if_pos hn] at hfail ⊢
      exact hfail
    · rw [if_neg hn] at hfail ⊢
      exact hfail
  unfold load read
  rw [wp_attempt, wp_bind, wp_bind, wp_op]
  refine ⟨hC, ?_, handler⟩
  rw [wp_bind, wp_get, wp_pure]
  unfold peek at hQ
  cases hread : s.files.read name with
  | none =>
    rw [hread] at hQ
    exact hQ
  | some env =>
    simp only [hread] at hQ
    simp only
    rw [wp_bind, wp_need]
    refine ⟨fun m hm => ?_, fun _ => handler⟩
    simp only [hm] at hQ
    rw [wp_ite]
    refine ⟨fun habi => ?_, fun habi => ?_⟩
    · rw [if_pos habi] at hQ
      exact hQ
    · rw [if_neg habi] at hQ
      exact hQ

end Rules

/-! ### Choosing -/

section Disk

variable {readHostBlob} {s : LoaderState}

theorem Disk.loader (h : Disk readHostBlob s) (l : Option Loader) :
    Disk readHostBlob { s with loader := l } :=
  ⟨h.committed, h.top, h.pending, h.past, h.marked, h.once, h.history⟩

theorem Disk.removePending (h : Disk readHostBlob s) :
    Disk readHostBlob { s with files := { s.files with pending := none } } :=
  ⟨h.committed, h.top, fun _ he => by simp at he, h.past, fun he => absurd rfl he, h.once, h.history⟩

theorem Disk.writeTried (h : Disk readHostBlob s) :
    Disk readHostBlob { s with files := { s.files with tried := true } } :=
  ⟨h.committed, h.top, h.pending, h.past, fun _ _ => rfl, h.once, h.history⟩

/-- The mark may go when nothing is pending, or the pending blob was not booted. -/
theorem Disk.removeTried (h : Disk readHostBlob s)
    (hp : s.files.pending = none ∨ ¬Spent s.marks s.files.staging) :
    Disk readHostBlob { s with files := { s.files with tried := false } } :=
  ⟨h.committed, h.top, h.pending, h.past,
    fun he hs => (hp.elim (fun hn => absurd hn he) fun hn => hn hs).elim, h.once, h.history⟩

/-- A staged blob was not booted yet. -/
theorem Disk.fresh (h : Disk readHostBlob s) : ¬Spent s.marks (s.files.staging + 1) := by
  rintro ⟨a, m, b, he, hm, -⟩
  have := h.past m (by rw [he]; simp) _ hm
  omega

theorem Disk.writePending (h : Disk readHostBlob s) {env : Bytes} {m : HostManifest}
    (hm : readHostBlob env = some m) (habi : m.abi = PLATFORM_ABI) :
    Disk readHostBlob { s with
      files := { s.files with pending := some env, staging := s.files.staging + 1 } } := by
  refine ⟨h.committed, h.top, fun e he => ?_, fun x hx i hi => ?_, fun _ hs => absurd hs h.fresh, h.once,
    h.history⟩
  · obtain rfl : env = e := Option.some.inj he
    exact ⟨m, hm, habi⟩
  · exact (h.past x hx i hi).trans (Nat.le_succ _)

/-- A mark that is neither a boot nor a commit. -/
theorem Disk.mark (h : Disk readHostBlob s) {m : LoaderMark} (hm : ∀ i, ¬Boots i m)
    (hc : ∀ e, m ≠ .committed e) (hok : MarkOk readHostBlob s.marks m) :
    Disk readHostBlob { s with marks := s.marks ++ [m] } := by
  refine ⟨fun env he => ?_, fun e he => ?_, h.pending, fun x hx i hi => ?_, fun he hs => ?_,
    h.once.snoc fun i hi => absurd hi (hm i), h.history.snoc readHostBlob hok⟩
  · exact ⟨List.mem_append_left _ (h.committed env he).1, (h.committed env he).2⟩
  · rcases List.mem_append.1 he with he | he
    · exact h.top e he
    · exact absurd (List.mem_singleton.1 he).symm (hc e)
  · rcases List.mem_append.1 hx with hx | hx
    · exact h.past x hx i hi
    · rw [List.mem_singleton.1 hx] at hi
      exact absurd hi (hm i)
  · exact h.marked he (hs.of_snoc.resolve_right (hm _))

/-- A boot, of the floor or of a pending blob that was not booted and is marked. -/
theorem Disk.boot (h : Disk readHostBlob s) {gen : Nat} {env : Bytes} {trial : Option Nat}
    {fixed : Option Bytes} {genesis : HostSlot}
    (hok : BootOk readHostBlob env trial fixed genesis s.files)
    (htrial : ∀ i, trial = some i → i = s.files.staging ∧ s.files.tried = true ∧ ¬Spent s.marks i) :
    Disk readHostBlob { s with marks := s.marks ++ [.boot gen env trial fixed genesis s.files] } := by
  refine ⟨fun env he => ?_, fun e he => ?_, h.pending, fun x hx i hi => ?_, fun he hs => ?_,
    h.once.snoc fun i hi => (htrial i hi).2.2, h.history.snoc readHostBlob hok⟩
  · exact ⟨List.mem_append_left _ (h.committed env he).1, (h.committed env he).2⟩
  · rcases List.mem_append.1 he with he | he
    · exact h.top e he
    · simp at he
  · rcases List.mem_append.1 hx with hx | hx
    · exact h.past x hx i hi
    · rw [List.mem_singleton.1 hx] at hi
      exact (htrial i hi).1.le
  · rcases hs.of_snoc with hs | hs
    · exact h.marked he hs
    · exact (htrial _ hs).2.1

/-- A commit above what was committed before. -/
theorem Disk.commit (h : Disk readHostBlob s) {p : HostSlot}
    (hreads : readHostBlob p.env = some ⟨p.version, PLATFORM_ABI⟩)
    (habove : ∀ env m, s.files.committed = some env → readHostBlob env = some m → m.version < p.version)
    (hok : CommitOk s.marks p.env) :
    Disk readHostBlob { s with
      files := { s.files with committed := some p.env }
      marks := s.marks ++ [.committed p.env] } := by
  refine ⟨fun env he => ?_, fun e he => ?_, h.pending, fun x hx i hi => ?_, fun he hs => ?_,
    h.once.snoc fun i hi => hi.elim, h.history.snoc readHostBlob hok⟩
  · obtain rfl : p.env = env := Option.some.inj he
    exact ⟨List.mem_append_right _ (List.mem_singleton.2 rfl), _, hreads, rfl⟩
  · rcases List.mem_append.1 he with he | he
    · obtain ⟨env, m, m', hc, hm, hm', hle⟩ := h.top e he
      exact ⟨p.env, _, m', rfl, hreads, hm', hle.trans (habove env m hc hm).le⟩
    · obtain rfl : e = p.env := by simpa using he
      exact ⟨p.env, _, _, rfl, hreads, hreads, le_rfl⟩
  · rcases List.mem_append.1 hx with hx | hx
    · exact h.past x hx i hi
    · rw [List.mem_singleton.1 hx] at hi
      exact hi.elim
  · exact h.marked he (hs.of_snoc.resolve_right fun hb => hb.elim)

theorem Disk.peek_committed (h : Disk readHostBlob s) {env : Bytes} {m : HostManifest}
    (hc : s.files.committed = some env) (hm : readHostBlob env = some m) :
    peek readHostBlob s.files .committed = some ⟨env, m.version⟩ := by
  obtain ⟨-, m', hm', habi⟩ := h.committed env hc
  obtain rfl : m = m' := Option.some.inj (hm.symm.trans hm')
  simp [peek, HostFiles.read, hc, hm, habi]

/-- What is above the floor is above what is committed. -/
theorem Disk.above_floor (h : Disk readHostBlob s) {genesis : HostSlot} {n : Nat}
    (hn : (floorOf readHostBlob genesis s.files).version < n) {env : Bytes} {m : HostManifest}
    (hc : s.files.committed = some env) (hm : readHostBlob env = some m) : m.version < n := by
  unfold floorOf at hn
  rw [h.peek_committed hc hm] at hn
  simp only [newer] at hn
  split at hn
  · exact hn
  · omega

end Disk

section Steps

variable {readHostBlob} {s : LoaderState}

theorem wp_discard {C E : LoaderState → Prop} {Q : Unit → LoaderState → Prop} (h : C s)
    (h' : C { s with files := { s.files with pending := none } })
    (hQ : Q () { s with
      files := { s.files with pending := none, tried := false }
      loader := s.loader.map fun l => { l with trial := none } }) :
    discard.wp (filing C) Q E s := by
  unfold discard clearPending Loader.removePending Loader.removeTried
  rw [wp_bind, wp_bind, wp_bind, wp_sure]
  refine ⟨h, ?_⟩
  rw [wp_onFiles, wp_bind, wp_sure]
  refine ⟨h', ?_⟩
  rw [wp_onFiles, wp_set]
  exact hQ

/-- The disk behind a discard. -/
theorem Disk.discarded (h : Disk readHostBlob s) (l : Option Loader) :
    Disk readHostBlob { s with
      files := { s.files with pending := none, tried := false }
      loader := l } :=
  (h.removePending.removeTried (.inl rfl)).loader l

/-- A loader that is booting, once it has chosen. -/
structure Chosen (readHostBlob : Bytes → Option HostManifest) (l : Loader) (env : Bytes)
    (s : LoaderState) : Prop where
  loader : s.loader = some l
  disk : Disk readHostBlob s
  timers : ∀ g ∈ l.timers, g ≤ l.gen ∧ (l.fixed = none → g < l.gen)
  pinned : l.fixed ≠ none → l.trial = none
  boot : BootOk readHostBlob env (l.trial.map fun _ => l.trialOf) l.fixed l.genesis s.files
  trial : ∀ p, l.trial = some p → env = p.env ∧ l.trialOf = s.files.staging ∧ s.files.tried = true ∧
    s.files.pending = some p.env ∧ readHostBlob p.env = some ⟨p.version, PLATFORM_ABI⟩ ∧
    ¬Spent s.marks s.files.staging ∧
    ∀ e m, s.files.committed = some e → readHostBlob e = some m → m.version < p.version

/-- A loader that has nothing on trial runs the floor. -/
theorem Chosen.floor {l : Loader} (hl : s.loader = some l) (hd : Disk readHostBlob s)
    (ht : ∀ g ∈ l.timers, g < l.gen) (hf : l.fixed = none) (hn : l.trial = none) :
    Chosen readHostBlob l (floorOf readHostBlob l.genesis s.files).env s := by
  refine ⟨hl, hd, fun g hg => ⟨(ht g hg).le, fun _ => ht g hg⟩, fun _ => hn, ?_, fun p hp => ?_⟩
  · simp [BootOk, hf, hn]
  · simp [hn] at hp

/-- The loader drops what is pending and runs the floor. -/
theorem wp_drop {E : LoaderState → Prop} {l : Loader} (hl : s.loader = some l)
    (hd : Disk readHostBlob s) (ht : ∀ g ∈ l.timers, g < l.gen) (hf : l.fixed = none)
    (hn : l.trial = none) :
    (do discard; return (floorOf readHostBlob l.genesis s.files).env : LoaderProg Bytes).wp
      (filing (Disk readHostBlob)) (fun env t => ∃ l, Chosen readHostBlob l env t) E s := by
  rw [wp_bind]
  refine wp_discard hd hd.removePending ?_
  have hl' : (s.loader.map fun l => { l with trial := none }) = some { l with trial := none } := by
    rw [hl]
    rfl
  exact ⟨_, Chosen.floor (l := { l with trial := none }) hl' (hd.discarded _) ht hf rfl⟩

/-- The pending blob is marked, and goes on trial. -/
theorem Chosen.try {l : Loader} {p : HostSlot} (hl : s.loader = some l) (hd : Disk readHostBlob s)
    (ht : ∀ g ∈ l.timers, g < l.gen) (hf : l.fixed = none)
    (hp : peek readHostBlob s.files .pending = some p)
    (hv : (floorOf readHostBlob l.genesis s.files).version < p.version)
    (hspent : ¬Spent s.marks s.files.staging) :
    Chosen readHostBlob { l with trial := some p, trialOf := s.files.staging } p.env { s with
      files := { s.files with tried := true }
      loader := some { l with trial := some p, trialOf := s.files.staging } } := by
  obtain ⟨hpend, hreads⟩ : s.files.pending = some p.env ∧
      readHostBlob p.env = some ⟨p.version, PLATFORM_ABI⟩ := by
    unfold peek at hp
    split at hp
    · simp at hp
    · rename_i env henv
      split at hp
      · simp at hp
      · rename_i m hm
        split at hp
        · rename_i habi
          obtain rfl := Option.some.inj hp
          exact ⟨henv, by rw [hm, ← habi]⟩
        · simp at hp
  refine ⟨rfl, hd.writeTried.loader _, fun g hg => ⟨(ht g hg).le, fun _ => ht g hg⟩, fun h => absurd hf h,
    ?_, fun q hq => ?_⟩
  · simp only [BootOk, hf]
    exact .inr ⟨rfl, hpend, trivial, _, hreads, hv⟩
  · obtain rfl : p = q := Option.some.inj hq
    exact ⟨rfl, rfl, rfl, hpend, hreads, hspent, fun e m hc hm => hd.above_floor hv hc hm⟩

theorem wp_choose {E : LoaderState → Prop} (h : Disk readHostBlob s)
    (ht : ∀ l, s.loader = some l → (∀ g ∈ l.timers, g ≤ l.gen) ∧ (l.fixed ≠ none → l.trial = none))
    (hE : ∀ t, Ready readHostBlob t → E t) :
    (choose readHostBlob).wp (filing (Disk readHostBlob))
      (fun env t => ∃ l, Chosen readHostBlob l env t) E s := by
  cases hl : s.loader with
  | none =>
    unfold choose
    rw [wp_bind, wp_set, wp_bind, wp_self]
    refine ⟨fun l hl' => by simp [hl] at hl', fun _ => hE _ ⟨h.loader _, ?_⟩⟩
    intro l hl'
    simp [hl] at hl'
  | some l₀ =>
    obtain ⟨htimers, hpinned⟩ := ht l₀ hl
    unfold choose
    rw [wp_bind, wp_set, wp_bind, wp_self]
    refine ⟨fun l hl' => ?_, fun hn => by simp [hl] at hn⟩
    obtain rfl : { l₀ with serving := false } = l := by simpa [hl] using hl'
    cases hfixed : l₀.fixed with
    | some env =>
      have htrial := hpinned (by simp [hfixed])
      simp only [wp_pure]
      refine ⟨_, hl', h.loader _, fun g hg => ⟨htimers g hg, fun hn => ?_⟩, ?_, ?_, fun p hp => ?_⟩
      · simp [hfixed] at hn
      · exact fun _ => htrial
      · simp [BootOk, hfixed, htrial]
      · simp [htrial] at hp
    | none =>
      simp only
      rw [wp_bind, wp_set, wp_bind]
      simp only [hl, Option.map_some]
      -- the state the rest starts from: nothing is on trial and no window is this boot's
      generalize hl₁ : ({ l₀ with serving := false, gen := l₀.gen + 1, trial := none } : Loader) = l₁
      have hgen : ∀ g ∈ l₁.timers, g < l₁.gen := by
        subst hl₁
        exact fun g hg => Nat.lt_succ_of_le (htimers g hg)
      have hnone : l₁.trial = none := by rw [← hl₁]
      have hfix : l₁.fixed = none := by rw [← hl₁]; exact hfixed
      have hd : Disk readHostBlob { s with loader := some l₁ } := h.loader _
      have hready : Ready readHostBlob { s with loader := some l₁ } := by
        refine ⟨hd, fun l hl => ?_⟩
        obtain rfl : l₁ = l := Option.some.inj hl
        exact ⟨fun _ => hnone, fun g hg => (hgen g hg).le, fun p hp => by simp [hnone] at hp⟩
      have hfloor := Chosen.floor (s := { s with loader := some l₁ }) rfl hd hgen hfix hnone
      unfold base
      rw [wp_bind]
      refine wp_load readHostBlob .committed hd ?_ (hE _ hready)
      rw [wp_bind, wp_self]
      refine ⟨fun l hl => ?_, fun hn => by simp at hn⟩
      obtain rfl : l₁ = l := Option.some.inj hl
      rw [wp_pure]
      unfold hasPending
      rw [wp_bind, wp_bind, wp_sure, wp_bind, wp_get, wp_pure]
      refine ⟨hd, ?_⟩
      rw [wp_ite]
      refine ⟨fun _ => ⟨_, hfloor⟩, fun hthere => ?_⟩
      unfold hasTried
      rw [wp_bind, wp_bind, wp_sure, wp_bind, wp_get, wp_pure]
      refine ⟨hd, ?_⟩
      rw [wp_ite]
      refine ⟨fun _ => wp_drop rfl hd hgen hfix hnone, fun htried => ?_⟩
      have hspent : ¬Spent s.marks s.files.staging := fun hs =>
        htried (h.marked (fun hp => hthere (by simp [hp])) hs)
      have hdrop := wp_drop (E := E) rfl hd hgen hfix hnone
      rw [wp_bind]
      refine wp_load readHostBlob .pending hd ?_ (by rwa [if_neg (by decide)])
      cases hp : peek readHostBlob s.files .pending with
      | none => exact hdrop
      | some p =>
        simp only
        rw [wp_ite]
        refine ⟨fun _ => hdrop, fun hv => ?_⟩
        unfold Loader.writeTried
        rw [wp_bind, wp_attempt, wp_bind, wp_bind, wp_op]
        refine ⟨hd, ?_, ⟨_, hfloor⟩⟩
        exact ⟨_, Chosen.try (s := { s with loader := some l₁ }) rfl hd hgen hfix hp (not_le.1 hv) hspent⟩

/-! ### Between two calls -/

/-- A loader with nothing on trial. -/
theorem Ready.rest {l : Loader} (hl : s.loader = some l) (hd : Disk readHostBlob s)
    (ht : ∀ g ∈ l.timers, g ≤ l.gen) (hn : l.trial = none) : Ready readHostBlob s := by
  refine ⟨hd, fun l' hl' => ?_⟩
  obtain rfl : l = l' := Option.some.inj (hl.symm.trans hl')
  exact ⟨fun _ => hn, ht, fun p hp => by simp [hn] at hp⟩

theorem Chosen.booted {l : Loader} {env : Bytes} (h : Chosen readHostBlob l env s) :
    Ready readHostBlob { s with
      loader := some { l with running := some env }
      marks := s.marks ++ [.boot l.gen env (l.trial.map fun _ => l.trialOf) l.fixed l.genesis s.files] } := by
  refine ⟨(h.disk.boot h.boot fun i hi => ?_).loader _, fun l' hl' => ?_⟩
  · obtain ⟨p, hp, rfl⟩ := Option.map_eq_some_iff.1 hi
    obtain ⟨-, hof, htried, -, -, hspent, -⟩ := h.trial p hp
    exact ⟨hof, htried, hof ▸ hspent⟩
  · obtain rfl := Option.some.inj hl'
    refine ⟨h.pinned, fun g hg => (h.timers g hg).1, fun p hp => ?_⟩
    obtain ⟨rfl, hof, htried, hpend, hreads, -, habove⟩ := h.trial p hp
    have hfix : l.fixed = none := by
      by_contra hf
      have : l.trial = some p := hp
      simp [h.pinned hf] at this
    refine ⟨hreads, habove, rfl, .inl ⟨hof, hpend, htried⟩, [], ⟨s.marks, l.fixed, l.genesis, s.files, ?_, ?_⟩,
      ?_, fun hg => absurd ((h.timers _ hg).2 hfix) (lt_irrefl _)⟩
    · have : l.trial = some p := hp
      simp [this]
    · simp
    · simp

theorem wp_body_choose (h : Ready readHostBlob s) :
    (body readHostBlob .choose).wp (filing (Disk readHostBlob)) (fun _ => Ready readHostBlob)
      (Ready readHostBlob) s := by
  unfold body
  rw [wp_bind, wp_set, wp_bind]
  refine wp_mono (wp_choose (h.disk.loader _) (fun l hl => ?_) fun _ => id) ?_ fun _ => id
  · obtain ⟨l₀, hl₀, rfl⟩ := Option.map_eq_some_iff.1 hl
    have ha := h.alive l₀ hl₀
    exact ⟨ha.timers, ha.pinned⟩
  · rintro env t ⟨l, hc⟩
    rw [wp_modify, hc.loader]
    exact hc.booted

theorem wp_body_stage (h : Ready readHostBlob s) (env : Bytes) :
    (body readHostBlob (.stage env)).wp (filing (Disk readHostBlob)) (fun _ => Ready readHostBlob)
      (Ready readHostBlob) s := by
  unfold body
  rw [wp_bind, wp_self]
  refine ⟨fun l hl => ?_, fun _ => h⟩
  have ha := h.alive l hl
  cases hrun : l.running with
  | none => exact h
  | some running =>
    simp only
    rw [wp_ite]
    refine ⟨fun hcheck => ?_, fun _ => h⟩
    unfold stage
    rw [wp_bind, wp_bind, wp_self]
    refine ⟨fun l' hl' => ?_, fun _ => h⟩
    obtain rfl : l = l' := Option.some.inj (hl.symm.trans hl')
    rw [wp_ite]
    refine ⟨fun _ => h, fun _ => ?_⟩
    rw [wp_bind, wp_need]
    refine ⟨fun m hm => ?_, fun _ => h⟩
    unfold checkStagedHost at hcheck
    rw [hm] at hcheck
    split at hcheck
    · rename_i self _ hself heq
      obtain rfl := Option.some.inj heq
      obtain ⟨habi, hlt⟩ := of_decide_eq_true hcheck
      unfold Loader.writePending Loader.removeTried
      rw [wp_bind, wp_op]
      refine ⟨h.disk, ?_, h⟩
      rw [wp_bind, wp_bind, wp_op]
      refine ⟨h.disk, ?_, h⟩
      rw [wp_onFiles, wp_bind, wp_bind, wp_sure]
      have hd := h.disk.writePending hm habi
      refine ⟨hd, ?_⟩
      rw [wp_onFiles, wp_bind, wp_get, wp_bind, wp_mark]
      -- the blob is staged: a trial that runs keeps its place before it
      have hready : ∀ b, Ready readHostBlob { s with
          files := { s.files with pending := some env, tried := false, staging := s.files.staging + 1 }
          loader := some { l with bootAfterFlow := b }
          marks := s.marks ++ [.staged (s.files.staging + 1)] } := by
        intro b
        have hd' := hd.removeTried (.inr h.disk.fresh)
        refine ⟨(hd'.mark (m := .staged _) (fun _ hb => hb) (by simp) trivial).loader _, fun l' hl' => ?_⟩
        obtain rfl := Option.some.inj hl'
        refine ⟨ha.pinned, ha.timers, fun p hp => ?_⟩
        have htr := ha.trial p hp
        obtain ⟨b, hb, hfailed, hended⟩ := htr.booted
        have hself' : self = ⟨p.version, PLATFORM_ABI⟩ := by
          have hpe : running = p.env := Option.some.inj (hrun.symm.trans htr.running)
          rw [hpe, htr.reads] at hself
          exact (Option.some.inj hself).symm
        refine ⟨htr.reads, htr.above, htr.running, .inr ⟨?_, rfl, env, m, rfl, hm, ?_⟩, _, hb.snoc rfl,
          by simp [hfailed], fun hg => List.mem_append_left _ (hended hg)⟩
        · rcases htr.order with ho | ho
          · exact Nat.lt_succ_of_le ho.1.le
          · exact Nat.lt_succ_of_lt ho.1
        · rw [hself'] at hlt
          exact hlt
      have hsame := hready l.bootAfterFlow
      rw [wp_ite]
      refine ⟨fun _ => ?_, fun _ => ?_⟩
      · simpa [hl] using hsame
      · rw [wp_bind, wp_self]
        refine ⟨fun l' hl' => ?_, fun hn => by simp [hl] at hn⟩
        obtain rfl : l = l' := Option.some.inj (hl.symm.trans hl')
        rw [wp_ite]
        refine ⟨fun _ => ?_, fun _ => by simpa [hl] using hsame⟩
        rw [wp_bind, wp_set, wp_pure]
        simpa [hl] using hready true
    · simp at hcheck

/-! ### The outcome of a trial -/

/-- A successor staged during the trial of `s` is still there, unmarked, and not committed;
where nothing is on trial the files stay. -/
def Spared (s t : LoaderState) : Prop :=
  ∀ l, s.loader = some l → (l.trial = none → t.files = s.files) ∧
    ∀ p, l.trial = some p → l.trialOf < s.files.staging →
      t.files.pending = s.files.pending ∧ t.files.tried = s.files.tried ∧
        (t.files.committed = s.files.committed ∨ t.files.committed = some p.env)

theorem Spared.of_files {t : LoaderState} (h : t.files = s.files) : Spared s t := fun _ _ =>
  ⟨fun _ => h, fun _ _ _ => by simp [h]⟩

theorem Spared.of_trial {l : Loader} {p : HostSlot} {t : LoaderState} (hl : s.loader = some l)
    (hp : l.trial = some p)
    (h : l.trialOf < s.files.staging → t.files.pending = s.files.pending ∧ t.files.tried = s.files.tried ∧
      (t.files.committed = s.files.committed ∨ t.files.committed = some p.env)) : Spared s t := by
  intro l' hl'
  obtain rfl : l = l' := Option.some.inj (hl.symm.trans hl')
  refine ⟨fun hn => by simp [hn] at hp, fun p' hp' => ?_⟩
  obtain rfl : p = p' := Option.some.inj (hp.symm.trans hp')
  exact h

/-- What an outcome keeps while it runs, and where it ends. -/
def Within (readHostBlob : Bytes → Option HostManifest) (s t : LoaderState) : Prop :=
  Disk readHostBlob t ∧ Spared s t

def Settled (readHostBlob : Bytes → Option HostManifest) (s t : LoaderState) : Prop :=
  Ready readHostBlob t ∧ Spared s t

/-- Whether the pending blob is the one on trial is told by its version. -/
theorem wp_holdsPending {C E : LoaderState → Prop} {Q : Bool → LoaderState → Prop} {p : HostSlot}
    (hreads : readHostBlob p.env = some ⟨p.version, PLATFORM_ABI⟩) (hC : C s)
    (hown : s.files.pending = some p.env → Q true s)
    (hnone : Q false s)
    (hother : s.files.pending = some p.env ∨
      ∃ env m, s.files.pending = some env ∧ readHostBlob env = some m ∧ p.version < m.version) :
    (holdsPending readHostBlob p).wp (filing C) Q E s := by
  unfold holdsPending
  rw [wp_bind]
  refine wp_load readHostBlob .pending hC ?_ ?_
  · rw [wp_pure]
    rcases hother with hp | ⟨env, m, hp, hm, hlt⟩
    · have hpeek : peek readHostBlob s.files .pending = some p := by
        simp [peek, HostFiles.read, hp, hreads]
      rw [hpeek]
      simpa using hown hp
    · have hne : ((peek readHostBlob s.files .pending).map HostSlot.version == some p.version) = false := by
        simp only [peek, HostFiles.read, hp, hm]
        split
        · simpa using hlt.ne'
        · rfl
      rw [hne]
      exact hnone
  · rw [if_neg (by decide), wp_pure]
    exact hnone

theorem Trial.others {l : Loader} {p : HostSlot} (h : Trial readHostBlob l p s) :
    s.files.pending = some p.env ∨
      ∃ env m, s.files.pending = some env ∧ readHostBlob env = some m ∧ p.version < m.version := by
  rcases h.order with ho | ho
  · exact .inl ho.2.1
  · exact .inr ho.2.2

/-- A pending blob that is the one on trial has no successor. -/
theorem Trial.alone {l : Loader} {p : HostSlot} (h : Trial readHostBlob l p s)
    (hp : s.files.pending = some p.env) : ¬l.trialOf < s.files.staging := by
  rcases h.order with ho | ⟨-, -, env, m, henv, hm, hlt⟩
  · exact fun hlt => by omega
  · obtain rfl : p.env = env := Option.some.inj (hp.symm.trans henv)
    rw [h.reads] at hm
    obtain rfl := Option.some.inj hm
    exact absurd hlt (lt_irrefl _)

theorem Spared.alone {l : Loader} {p : HostSlot} (hl : s.loader = some l) (hp : l.trial = some p)
    (h : Trial readHostBlob l p s) (hpend : s.files.pending = some p.env) (t : LoaderState) :
    Spared s t := .of_trial hl hp fun hlt => absurd hlt (h.alone hpend)

theorem wp_body_failed (h : Ready readHostBlob s) :
    (body readHostBlob .failed).wp (filing (Within readHostBlob s)) (fun _ => Settled readHostBlob s)
      (Settled readHostBlob s) s := by
  unfold body failed
  rw [wp_bind, wp_mark, wp_bind, wp_bind, wp_self]
  have hd : Disk readHostBlob { s with marks := s.marks ++ [.failed] } :=
    h.disk.mark (fun _ hb => hb) (by simp) trivial
  have hspared : ∀ l marks, Spared s { s with loader := l, marks := marks } := fun l marks => .of_files rfl
  refine ⟨fun l hl => ?_, fun hn => ⟨⟨hd, fun l hl => ?_⟩, hspared _ _⟩⟩
  · have ha := h.alive l hl
    have hidle : ∀ t : LoaderState, Disk readHostBlob t → t.loader = s.loader.map (fun l => { l with trial := none }) →
        Ready readHostBlob t := fun t hd' ht => .rest (l := { l with trial := none }) (by rw [ht, hl]; rfl) hd' ha.timers rfl
    cases hp : l.trial with
    | none =>
      simp only [wp_pure]
      exact ⟨.rest hl hd ha.timers hp, hspared _ _⟩
    | some p =>
      have htr := ha.trial p hp
      simp only
      rw [wp_bind]
      refine wp_holdsPending htr.reads ⟨hd, hspared _ _⟩ (fun hpend => ?_) ?_ htr.others
      · have halone := Spared.alone (s := s) hl hp htr hpend
        rw [wp_ite]
        refine ⟨fun _ => ?_, fun hn => absurd rfl hn⟩
        rw [wp_bind]
        exact wp_discard ⟨hd, hspared _ _⟩ ⟨hd.removePending, halone _⟩ ⟨hidle _ (hd.discarded _) rfl, halone _⟩
      · rw [wp_ite]
        refine ⟨fun hf => by simp at hf, fun _ => ?_⟩
        rw [wp_bind, wp_set]
        exact ⟨hidle _ (hd.loader _) rfl, hspared _ _⟩
  · exact absurd (hl.symm.trans hn) (by simp)

/-- A trial that ended without serving leaves its staging unspent. -/
theorem Trial.unspent {l : Loader} {p : HostSlot} (h : Trial readHostBlob l p s)
    (hd : Disk readHostBlob s) : ¬Spent (s.marks ++ [.ended false]) s.files.staging := by
  intro hs
  rcases h.order with ⟨hof, -, -⟩ | ⟨-, htried, env, m, hpend, -, -⟩
  · -- the last boot of the staging idled here, and those before it had idled when it came
    obtain ⟨b, ⟨a, fixed, genesis, f, hmarks, hb⟩, -, -⟩ := h.booted
    obtain ⟨a', x, c, he, hx, hc⟩ := hs
    rcases split_snoc he with ⟨-, -, rfl⟩ | ⟨c', rfl, he'⟩
    · exact hx
    · have hidled : Idled (b ++ [.ended false]) := by
        refine idled_of_mem (fun x hx => ?_) (by simp)
        rcases List.mem_append.1 hx with hx | hx
        · exact hb x hx
        · rw [List.mem_singleton.1 hx]
          rfl
      have hlast : Boots s.files.staging (.boot l.gen p.env (some l.trialOf) fixed genesis f) :=
        congrArg some hof
      rw [hmarks] at he'
      rcases List.append_eq_append_iff.1 he' with ⟨d, rfl, hd'⟩ | ⟨d, rfl, hd'⟩
      · cases d with
        | nil =>
          obtain ⟨-, rfl⟩ := List.cons.inj hd'
          exact hc hidled
        | cons y d =>
          obtain ⟨-, rfl⟩ := List.cons.inj hd'
          have := hb x (by simp)
          cases x <;> simp [Boots, starts] at hx this
      · cases d with
        | nil =>
          obtain ⟨-, rfl⟩ := List.cons.inj hd'
          exact hc hidled
        | cons y d =>
          obtain ⟨rfl, rfl⟩ := List.cons.inj hd'
          have hi := hd.once a' d b x _ s.files.staging (by simpa using hmarks) hx hlast
          exact hc ((hi.append _).append _)
  · have := hd.marked (by simp [hpend]) (hs.of_snoc.resolve_right fun hb => hb)
    simp [htried] at this

theorem wp_body_ended (h : Ready readHostBlob s) (serving : Bool) :
    (body readHostBlob (.ended serving)).wp (filing (Within readHostBlob s))
      (fun _ => Settled readHostBlob s) (Settled readHostBlob s) s := by
  unfold body ended
  rw [wp_bind, wp_mark, wp_bind, wp_bind, wp_set, wp_bind, wp_self]
  have hd : Disk readHostBlob { s with marks := s.marks ++ [.ended serving] } :=
    h.disk.mark (fun _ hb => hb) (by simp) trivial
  have hspared : ∀ l marks, Spared s { s with loader := l, marks := marks } := fun l marks => .of_files rfl
  cases hl : s.loader with
  | none =>
    refine ⟨fun l hl' => by simp at hl', fun _ => ⟨⟨hd.loader _, fun l hl' => by simp at hl'⟩, hspared _ _⟩⟩
  | some l₀ =>
    have ha := h.alive l₀ hl
    refine ⟨fun l hl' => ?_, fun hn => by simp at hn⟩
    obtain rfl : { l₀ with hostArgs := withoutOp l₀.hostArgs } = l := by simpa using hl'
    rw [wp_bind, wp_set]
    simp only [Option.map_some]
    generalize hl₁ : ({ l₀ with
      hostArgs := withoutOp l₀.hostArgs, bootAfterFlow := false
      serving := serving && !(serving && l₀.bootAfterFlow) } : Loader) = l₁
    have htrial : l₁.trial = l₀.trial := by rw [← hl₁]
    have hof : l₁.trialOf = l₀.trialOf := by rw [← hl₁]
    have hgen : l₁.gen = l₀.gen := by rw [← hl₁]
    have htimers : l₁.timers = l₀.timers := by rw [← hl₁]
    have hrunning : l₁.running = l₀.running := by rw [← hl₁]
    have hfixed : l₁.fixed = l₀.fixed := by rw [← hl₁]
    have hbound : ∀ g ∈ l₁.timers, g ≤ l₁.gen := by
      rw [htimers, hgen]
      exact ha.timers
    rw [wp_ite]
    refine ⟨fun hc => ?_, fun hc => ?_⟩
    · -- it only ran an op: untried again
      obtain ⟨hsome, rfl⟩ : l₀.trial.isSome = true ∧ serving = false := by simpa using hc
      obtain ⟨p, hp⟩ := Option.isSome_iff_exists.1 hsome
      have htr := ha.trial p hp
      unfold Loader.removeTried
      rw [wp_bind, wp_bind, wp_sure]
      refine ⟨⟨hd.loader _, hspared _ _⟩, ?_⟩
      rw [wp_onFiles, wp_bind, wp_set]
      refine ⟨.rest (l := { l₁ with trial := none }) rfl ((hd.removeTried (.inr (htr.unspent h.disk))).loader _)
        hbound rfl, .of_trial hl hp fun hlt => ?_⟩
      rcases htr.order with ho | ho
      · omega
      · exact ⟨rfl, ho.2.1.symm, .inl rfl⟩
    · -- a trial that serves goes on, with a window of its own or none
      have hserves : ∀ p, l₀.trial = some p → serving = true := fun p hp => by simpa [hp] using hc
      have hkeep : ∀ timers, (∀ g ∈ timers, g ≤ l₀.gen) → Ready readHostBlob { s with
          loader := some { l₁ with timers := timers }
          marks := s.marks ++ [.ended serving] } := by
        intro timers hle
        refine ⟨hd.loader _, fun l hl' => ?_⟩
        obtain rfl := Option.some.inj hl'
        refine ⟨fun hf => ?_, fun g hg => ?_, fun p hp => ?_⟩
        · exact htrial.trans (ha.pinned (by rwa [← hfixed]))
        · exact (hle g hg).trans hgen.ge
        · have hp₀ : l₀.trial = some p := htrial.symm.trans hp
          have htr := ha.trial p hp₀
          obtain ⟨b, hb, hfailed, -⟩ := htr.booted
          obtain rfl := hserves p hp₀
          refine ⟨htr.reads, htr.above, hrunning.trans htr.running, ?_, b ++ [.ended true], ?_, by simp [hfailed], ?_⟩
          · simp only [hof]
            exact htr.order
          · simp only [hgen, hof]
            exact hb.snoc rfl
          · simp
      rw [wp_ite]
      refine ⟨fun _ => ?_, fun _ => ?_⟩
      · rw [wp_bind, wp_set]
        refine ⟨hkeep (l₁.timers ++ [l₁.gen]) fun g hg => ?_, hspared _ _⟩
        rcases List.mem_append.1 hg with hg | hg
        · exact hgen ▸ hbound g hg
        · exact (List.mem_singleton.1 hg).le.trans hgen.le
      · exact ⟨hkeep l₁.timers fun g hg => hgen ▸ hbound g hg, hspared _ _⟩

theorem wp_body_window (h : Ready readHostBlob s) (gen : Nat) :
    (body readHostBlob (.window gen)).wp (filing (Within readHostBlob s))
      (fun _ => Settled readHostBlob s) (Settled readHostBlob s) s := by
  have hsame : Spared s s := .of_files rfl
  unfold body
  rw [wp_bind, wp_self]
  refine ⟨fun l hl => ?_, fun _ => ⟨h, hsame⟩⟩
  have ha := h.alive l hl
  rw [wp_ite]
  refine ⟨fun hmem => ?_, fun _ => ⟨h, hsame⟩⟩
  rw [wp_bind, wp_set, wp_bind, wp_mark]
  simp only [hl, Option.map_some]
  have hd : Disk readHostBlob { s with marks := s.marks ++ [.window gen] } :=
    h.disk.mark (fun _ hb => hb) (by simp) trivial
  have hspared : ∀ l marks, Spared s { s with loader := l, marks := marks } := fun l marks => .of_files rfl
  have hbound : ∀ g ∈ l.timers.erase gen, g ≤ l.gen := fun g hg => ha.timers g (List.mem_of_mem_erase hg)
  -- the window is over, and nothing else has changed
  have hkept : Settled readHostBlob s { s with
      loader := some { l with timers := l.timers.erase gen }
      marks := s.marks ++ [.window gen] } := by
    refine ⟨⟨hd.loader _, fun l' hl' => ?_⟩, hspared _ _⟩
    obtain rfl := Option.some.inj hl'
    refine ⟨ha.pinned, hbound, fun p hp => ?_⟩
    have htr := ha.trial p hp
    obtain ⟨b, hb, hfailed, hended⟩ := htr.booted
    exact ⟨htr.reads, htr.above, htr.running, htr.order, _, hb.snoc rfl, by simp [hfailed],
      fun hg => List.mem_append_left _ (hended (List.mem_of_mem_erase hg))⟩
  generalize hl₁ : ({ l with timers := l.timers.erase gen } : Loader) = l₁ at hkept ⊢
  have htrial : l₁.trial = l.trial := by rw [← hl₁]
  have hsamegen : l₁.gen = l.gen := by rw [← hl₁]
  have hbound₁ : ∀ g ∈ l₁.timers, g ≤ l₁.gen := by
    rw [← hl₁]
    exact hbound
  unfold commit
  rw [wp_bind, wp_self]
  refine ⟨fun l' hl' => ?_, fun hn => by simp at hn⟩
  obtain rfl := Option.some.inj hl'
  cases hp₁ : l₁.trial with
  | none => exact hkept
  | some p =>
    have hp : l.trial = some p := htrial.symm.trans hp₁
    have htr := ha.trial p hp
    simp only
    rw [wp_ite]
    refine ⟨fun _ => hkept, fun hgen => ?_⟩
    obtain rfl : l.gen = gen := hsamegen.symm.trans (not_not.1 hgen)
    unfold writeCommitted
    rw [wp_bind, wp_attempt, wp_bind, wp_bind, wp_op]
    refine ⟨⟨hd.loader _, hspared _ _⟩, ?_, hkept⟩
    rw [wp_onFiles, wp_bind, wp_mark, wp_pure, wp_ite]
    refine ⟨fun hf => by simp at hf, fun _ => ?_⟩
    have hok : CommitOk (s.marks ++ [.window l.gen]) p.env := by
      obtain ⟨b, ⟨a, fixed, genesis, f, hb, hstarts⟩, hfailed, hended⟩ := htr.booted
      exact ⟨a, l.gen, l.trialOf, fixed, genesis, f, b, by simp [hb], hstarts, hfailed, hended hmem⟩
    have hdc := hd.commit htr.reads htr.above hok
    have hcommit : ∀ l marks, Spared s { s with
        files := { s.files with committed := some p.env }, loader := l, marks := marks } := fun l₂ marks =>
      .of_trial hl hp fun _ => ⟨rfl, rfl, .inr rfl⟩
    rw [wp_bind]
    refine wp_holdsPending htr.reads ⟨hdc.loader _, hcommit _ _⟩ (fun hpend => ?_) ?_ htr.others
    · have halone := Spared.alone (s := s) hl hp htr hpend
      rw [wp_ite]
      refine ⟨fun _ => ?_, fun hn => absurd rfl hn⟩
      unfold clearPending Loader.removePending Loader.removeTried
      rw [wp_bind, wp_bind, wp_bind, wp_sure]
      refine ⟨⟨hdc.loader _, hcommit _ _⟩, ?_⟩
      rw [wp_onFiles, wp_bind, wp_sure]
      refine ⟨⟨(hdc.loader _).removePending, halone _⟩, ?_⟩
      rw [wp_onFiles, wp_set]
      exact ⟨.rest rfl (hdc.discarded _) hbound₁ rfl, halone _⟩
    · rw [wp_ite]
      refine ⟨fun hf => by simp at hf, fun _ => ?_⟩
      rw [wp_set]
      exact ⟨.rest rfl (hdc.loader _) hbound₁ rfl, hcommit _ _⟩

/-- A turn that tells how a boot went. -/
def Outcome : Turn → Prop
  | .ended _ => True
  | .failed => True
  | .window _ => True
  | _ => False

theorem wp_outcome (h : Ready readHostBlob s) {t : Turn} (ht : Outcome t) :
    (body readHostBlob t).wp (filing (Within readHostBlob s)) (fun _ => Settled readHostBlob s)
      (Settled readHostBlob s) s := by
  cases t with
  | choose => exact ht.elim
  | ended serving => exact wp_body_ended h serving
  | failed => exact wp_body_failed h
  | stage env => exact ht.elim
  | window gen => exact wp_body_window h gen

theorem sat_filing_mono {α : Type} {C C' : LoaderState → Prop} (hC : ∀ s, C s → C' s)
    {Q : α → LoaderState → Prop} {E : LoaderState → Prop} {o : Out LoaderState FileOp Unit α}
    (h : o.Sat (filing C) Q E) : o.Sat (filing C') Q E := by
  induction o with
  | ret a s => exact h
  | err s => exact h
  | wait c s k ih => exact ⟨hC _ h.1, fun a s' hr => ih a _ (h.2 a s' hr)⟩

/-- Every turn leaves the loader ready, and a crash in it the disk in order. -/
theorem wp_body (h : Ready readHostBlob s) (t : Turn) :
    (body readHostBlob t).wp (filing (Disk readHostBlob)) (fun _ => Ready readHostBlob)
      (Ready readHostBlob) s := by
  have outcome : Outcome t → (body readHostBlob t).wp (filing (Disk readHostBlob))
      (fun _ => Ready readHostBlob) (Ready readHostBlob) s := fun ht =>
    wp_mono (sat_filing_mono (fun _ hw => hw.1) (wp_outcome h ht)) (fun _ _ hs => hs.1) fun _ hs => hs.1
  cases t with
  | choose => exact wp_body_choose h
  | ended serving => exact outcome trivial
  | failed => exact outcome trivial
  | stage env => exact wp_body_stage h env
  | window gen => exact outcome trivial

theorem Disk.start (h : Disk readHostBlob s) (args : List String) (mode : UpdateMode)
    (fixed : Option Bytes) (genesis : Bytes) :
    Ready readHostBlob (start readHostBlob args mode fixed genesis s) := by
  have hd : Disk readHostBlob { s with marks := s.marks ++ [.process] } :=
    h.mark (fun _ hb => hb) (by simp) trivial
  have hnone : Ready readHostBlob { s with loader := none, marks := s.marks ++ [.process] } :=
    ⟨hd.loader _, fun l hl => by simp at hl⟩
  unfold Loader.start
  split
  · exact hnone
  · split
    · exact .rest rfl (hd.loader _) (fun g hg => by simp at hg) rfl
    · exact hnone

end Steps

end Loader

end SeedTransport
