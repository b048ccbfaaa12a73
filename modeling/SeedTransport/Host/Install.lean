import SeedTransport.Host.SlotTable

set_option autoImplicit false

namespace SeedTransport

/-! How a node installs, replaces, removes and revokes bundles (`shell-core.ts`), with the
freshness store it marks versions in (`bundle.ts`) and the gates it holds every bundle to
(`policy.ts`). `installBundle` is asynchronous: between two of its awaits any other
operation of the node may run. -/

def hexDigit (n : Nat) : Char := "0123456789abcdef".toList.getD n '0'

def toHex (b : Bytes) : String :=
  String.ofList (b.flatMap fun x => [hexDigit (x.toNat / 16), hexDigit (x.toNat % 16)])

/-! ### The freshness store -/

structure FreshnessMarks where
  marks : OrdMap (Bytes × String) Nat
  revoked : List Bytes

namespace FreshnessMarks

/-- The mark of a label of an author; `none` is the `-Infinity` of one never marked. -/
def get (f : FreshnessMarks) (author : Bytes) (app : String) : Option Nat :=
  f.marks.get (author, app)

/-- `Number.MAX_SAFE_INTEGER + 1` -/
def SAFE_INTEGERS : Nat := 2 ^ 53

/-- Raise a mark. `persists` is whether the target's own write went through; a write that
failed takes the mark back and throws. -/
def set (author : Bytes) (app : String) (version : Nat) (persists : Bool) (f : FreshnessMarks) :
    Except String Unit × FreshnessMarks :=
  if SAFE_INTEGERS ≤ version then
    (.error ("freshness store: refusing invalid version " ++ toString version ++
      " (expected a non-negative safe integer)"), f)
  else
    let k := (author, app)
    let cur := f.marks.get k
    if cur.any (version ≤ ·) then (.ok (), f)
    else
      let marks := f.marks.set k version
      if persists then (.ok (), { f with marks := marks })
      else
        let back := match cur with
          | none => marks.delete k
          | some c => marks.set k c
        (.error ("freshness store: the mark for '" ++ app ++
          "' could not be persisted — it stays at " ++ (cur.map toString).getD "unset"),
          { f with marks := back })

def isRevoked (f : FreshnessMarks) (author : Bytes) : Bool := f.revoked.contains author

def revoke (author : Bytes) (persists : Bool) (f : FreshnessMarks) :
    Except String Unit × FreshnessMarks :=
  if f.revoked.contains author then (.ok (), f)
  else
    let revoked := f.revoked ++ [author]
    if persists then (.ok (), { f with revoked := revoked })
    else
      (.error ("freshness store: the revocation could not be persisted — " ++ toHex author ++
        " is NOT revoked"), { f with revoked := revoked.erase author })

end FreshnessMarks

/-- Revocation, then the downgrade guard. -/
def checkHostGates (v : LoadedBundle) (store : FreshnessMarks) : Except String Unit :=
  if store.isRevoked v.author then
    .error ("bundle: author " ++ toHex v.author ++ " is revoked on this host — refusing " ++
      v.manifest.app ++ " v" ++ toString v.manifest.version)
  else
    match store.get v.author v.manifest.app with
    | none => .ok ()
    | some highWater =>
      if v.manifest.version < highWater then
        .error ("bundle: version " ++ toString v.manifest.version ++
          " is below the (author, app) freshness high-water mark " ++ toString highWater ++
          " — downgrade refused")
      else .ok ()

/-! ### The driver's binding -/

/-- What the node's driver keeps of its occupant: the slot whose realm it enters. -/
structure TransportHost where
  call : Option Nat
  closed : Bool
  deriving DecidableEq

namespace TransportHost

def release (t : TransportHost) : TransportHost := { t with call := none }

def activate (slot : Nat) (t : TransportHost) : TransportHost :=
  { t.release with call := some slot }

def close (t : TransportHost) : TransportHost :=
  if t.closed then t else { t with closed := true, call := none }

end TransportHost

/-! ### The slots' own state -/

/-- A realm, or a set of modules, of a slot. -/
inductive Holding where
  | none
  | live
  | disposed
  deriving DecidableEq

def Holding.dispose : Holding → Holding
  | .none => .none
  | _ => .disposed

/-- What changes over the life of a slot. -/
structure SlotState where
  active : Bool
  timersDisposed : Bool
  realm : Holding
  pureModules : Holding
  deriving DecidableEq

namespace SlotState

/-- No slot yet. -/
def unborn : SlotState := ⟨false, false, .none, .none⟩

/-- A slot for loaded modules, without its realm yet. -/
def newSlot : SlotState := ⟨false, false, .none, .live⟩

/-- A slot in the table. -/
def running : SlotState := ⟨true, false, .live, .live⟩

/-- `disposeSlot` -/
def dispose (s : SlotState) : SlotState :=
  { active := false
    timersDisposed := true
    realm := s.realm.dispose
    pureModules := s.pureModules.dispose }

/-- Neither runs nor holds anything. -/
def Disposed (s : SlotState) : Prop :=
  s.active = false ∧ s.realm ≠ .live ∧ s.pureModules ≠ .live

instance (s : SlotState) : Decidable s.Disposed :=
  inferInstanceAs (Decidable (_ ∧ _ ∧ _))

theorem disposed_dispose (s : SlotState) : s.dispose.Disposed := by
  refine ⟨rfl, ?_, ?_⟩
  · cases hr : s.realm <;> simp [dispose, hr, Holding.dispose]
  · cases hm : s.pureModules <;> simp [dispose, hm, Holding.dispose]

end SlotState

/-! ### Installs -/

/-- An installer's `localConfig`, as it survives a round trip through JSON. -/
inductive LocalConfig where
  | absent
  | object
  | other
  deriving DecidableEq

/-- `none` in a bound is `Infinity`. -/
structure InstallOptions where
  replaces : Option String
  localConfig : LocalConfig
  realmMemoryBytes : Option (Option ℚ)
  guestDeadlineMs : Option (Option ℚ)

def DEFAULT_GUEST_DEADLINE_MS : ℚ := 5000

def DEFAULT_REALM_MEMORY_BYTES : ℚ := 64 * 1024 * 1024

/-- What a node is booted with: the verifier of a bundle's bytes and its own bounds. -/
structure BootOptions where
  verifyBundle : Bytes → Except String LoadedBundle
  realmMemoryBytes : Option (Option ℚ)
  guestDeadlineMs : Option (Option ℚ)

/-- The bounds of one install; their numbers are left out of the texts. -/
def BootOptions.boundsFor (opts : BootOptions) (load : InstallOptions) :
    Except String (Option ℚ × Option ℚ) :=
  let deadlineMs := (load.guestDeadlineMs <|> opts.guestDeadlineMs).getD
    (some DEFAULT_GUEST_DEADLINE_MS)
  let memoryBytes := (load.realmMemoryBytes <|> opts.realmMemoryBytes).getD
    (some DEFAULT_REALM_MEMORY_BYTES)
  if deadlineMs.any (· < 1) then
    .error "shell: guestDeadlineMs must be at least 1 ms, or Infinity"
  else if ¬ memoryBytes.any (fun m => 1 ≤ m ∧ m < 2 ^ 32) then
    .error "shell: realmMemoryBytes must be at least 1 and below 2^32"
  else .ok (deadlineMs, memoryBytes)

/-- What an install carries over its awaits. -/
structure Candidate where
  loaded : LoadedBundle
  replacement : Option AppSlot
  bootTransport : Bool
  deriving DecidableEq

/-- Where an install waits, or how it ended. -/
inductive Stage where
  | idle
  | admitting (c : Candidate)
  | loading (c : Candidate)
  | standing (c : Candidate)
  | resolved (slot : AppSlot)
  | rejected (reason : String)
  deriving DecidableEq

/-- A node. Installs are told apart by a number, and the slot an install makes takes it. -/
structure ShellNode where
  table : SlotTable
  store : FreshnessMarks
  netHost : Option TransportHost
  closed : Bool
  slot : Nat → SlotState
  stage : Nat → Stage

namespace ShellNode

/-- A node before its first install, over a store read back from its target. -/
def boot (maxSlots : Nat) (store : FreshnessMarks) (hasNet : Bool) : ShellNode where
  table := .create maxSlots
  store := store
  netHost := if hasNet then some ⟨none, false⟩ else none
  closed := false
  slot := fun _ => .unborn
  stage := fun _ => .idle

/-- Move one install along, with the slot it makes. -/
def move (i : Nat) (stage : Stage) (slot : SlotState) (n : ShellNode) : ShellNode :=
  { n with stage := Function.update n.stage i stage, slot := Function.update n.slot i slot }

def disposeSlot (i : Nat) (n : ShellNode) : ShellNode :=
  { n with slot := Function.update n.slot i (n.slot i).dispose }

def checkInstallation (n : ShellNode) (c : Candidate) : Except String Unit :=
  if n.closed then .error "shell: node is closed"
  else n.table.refuseConflicts c.loaded c.replacement c.bootTransport

/-- `installBundle` up to the admission predicate. -/
def verify (opts : BootOptions) (n : ShellNode) (blob : Bytes) (load : InstallOptions)
    (bootTransport : Bool) : Except String Candidate := do
  if load.localConfig = .other then .error "shell: localConfig must be a JSON object"
  let _ ← opts.boundsFor load
  let replacement ← match load.replaces with
    | none => .ok none
    | some app =>
      match n.table.get app with
      | some r => .ok (some r)
      | none => .error ("shell: '" ++ app ++
          "' is not installed, so there is nothing for this bundle to replace")
  let v ← opts.verifyBundle blob
  checkHostGates v n.store
  if bootTransport ∧ ¬ v.manifest.reachesLink then
    .error "shell: the boot transport must require \"link\""
  .ok ⟨v, replacement, bootTransport⟩

/-- Refuse a conflict before the candidate's code runs, then wait for its modules. -/
def prepare (i : Nat) (c : Candidate) (n : ShellNode) : ShellNode :=
  match n.checkInstallation c with
  | .error e => n.move i (.rejected e) (n.slot i)
  | .ok _ => n.move i (.loading c) (n.slot i)

/-- The last checks and the mark, in one go behind the realm. -/
def gates (n : ShellNode) (c : Candidate) (made : Except String Unit) (persists : Bool) :
    Except String Unit × FreshnessMarks :=
  match made with
  | .error e => (.error e, n.store)
  | .ok _ =>
    match checkHostGates c.loaded n.store with
    | .error e => (.error e, n.store)
    | .ok _ =>
      match n.checkInstallation c with
      | .error e => (.error e, n.store)
      | .ok _ => n.store.set c.loaded.author c.loaded.manifest.app c.loaded.manifest.version persists

/-- The driver follows the `link` claim. -/
def rebind (slot : AppSlot) (table : SlotTable) (netHost : Option TransportHost) :
    Option TransportHost :=
  match table.occupant "link" with
  | some holder => if holder = slot then netHost.map (TransportHost.activate slot.id) else netHost
  | none => netHost.map TransportHost.release

/-- The handover: claims, driver, the new slot, the old one. -/
def commit (i : Nat) (c : Candidate) (store : FreshnessMarks) (n : ShellNode) : ShellNode :=
  let slot : AppSlot := ⟨i, c.loaded⟩
  let table := n.table.commit slot c.replacement
  let n' : ShellNode :=
    { n with
      table := table
      store := store
      netHost := rebind slot table n.netHost
      slot := Function.update n.slot i { n.slot i with realm := .live, active := true }
      stage := Function.update n.stage i (.resolved slot) }
  match c.replacement with
  | some r => n'.disposeSlot r.id
  | none => n'

def doUninstall (app : String) (n : ShellNode) : ShellNode :=
  match n.table.remove app with
  | (none, _) => n
  | (some slot, table) =>
    disposeSlot slot.id
      { n with
        table := table
        netHost := if table.occupant "link" = none then n.netHost.map TransportHost.release
          else n.netHost }

/-- The labels an author runs under. -/
def labelsOf (author : Bytes) (n : ShellNode) : List String :=
  (n.table.slots.filter fun s => s.verifiedBundle.author == author).map AppSlot.label

def revoke (author : Bytes) (persists : Bool) (n : ShellNode) :
    Except String (List String) × ShellNode :=
  match n.store.revoke author persists with
  | (.error e, store) => (.error e, { n with store := store })
  | (.ok _, store) =>
    let gone := n.labelsOf author
    (.ok gone, gone.foldl (fun n app => n.doUninstall app) { n with store := store })

def close (n : ShellNode) : ShellNode :=
  let gone := n.table.clear
  gone.1.foldl (fun n slot => n.disposeSlot slot.id)
    { n with closed := true, netHost := n.netHost.map TransportHost.close, table := gone.2 }

/-- A host call of a slot's realm: refused until the slot is active. -/
def seam (fullSeam : String → Bytes → Except String Bytes) (n : ShellNode) (i : Nat) (name : String)
    (payload : Bytes) : Except String Bytes :=
  if (n.slot i).active then fullSeam name payload
  else .error ("shell: '" ++ name ++ "' is refused until this bundle's installation commits")

end ShellNode

/-- What may happen next on a node. An install goes on when what it awaits has come: the
predicate's answer, its modules, its realm. -/
inductive ShellEvent where
  | install (i : Nat) (blob : Bytes) (load : InstallOptions) (bootTransport : Bool)
  | admitted (i : Nat) (answer : Except String Bool)
  | modulesLoaded (i : Nat) (made : Except String Unit)
  | realmStood (i : Nat) (made : Except String Unit) (persists : Bool)
  | uninstall (app : String)
  | revoke (author : Bytes) (persists : Bool)
  | close

/-- The install an event moves. -/
def ShellEvent.installOf : ShellEvent → Option Nat
  | .install i .. => some i
  | .admitted i _ => some i
  | .modulesLoaded i _ => some i
  | .realmStood i .. => some i
  | _ => none

namespace ShellNode

def step (opts : BootOptions) (n : ShellNode) : ShellEvent → ShellNode
  | .install i blob load bootTransport =>
    match n.stage i with
    | .idle =>
      match n.verify opts blob load bootTransport with
      | .error e => n.move i (.rejected e) (n.slot i)
      | .ok c =>
        -- who may take `link` is not the predicate's to say
        if c.loaded.manifest.reachesLink then n.prepare i c
        else n.move i (.admitting c) (n.slot i)
    | _ => n
  | .admitted i answer =>
    match n.stage i with
    | .admitting c =>
      match answer with
      | .error e => n.move i (.rejected e) (n.slot i)
      | .ok false => n.move i (.rejected "bundle: rejected by admission predicate") (n.slot i)
      | .ok true => n.prepare i c
    | _ => n
  | .modulesLoaded i made =>
    match n.stage i with
    | .loading c =>
      match made with
      | .error e => n.move i (.rejected e) (n.slot i)
      | .ok _ => n.move i (.standing c) .newSlot
    | _ => n
  | .realmStood i made persists =>
    match n.stage i with
    | .standing c =>
      let s : SlotState := { n.slot i with realm := if made.isOk then .live else .none }
      match n.gates c made persists with
      | (.error e, store) => { n with store := store }.move i (.rejected e) s.dispose
      | (.ok _, store) => n.commit i c store
    | _ => n
  | .uninstall app => n.doUninstall app
  | .revoke author persists => (n.revoke author persists).2
  | .close => n.close

def run (opts : BootOptions) (n : ShellNode) (es : List ShellEvent) : ShellNode :=
  es.foldl (step opts) n

end ShellNode

/-! ### What the store's writes do -/

namespace FreshnessMarks

/-- A mark that could not be written is not raised. -/
theorem set_error {author : Bytes} {app : String} {version : Nat} {persists : Bool}
    {f f' : FreshnessMarks} {e : String} (h : f.set author app version persists = (.error e, f')) :
    f' = f := by
  unfold set at h
  split at h
  · exact (Prod.mk.inj h).2.symm
  · simp only at h
    split at h
    · simp at h
    · split at h
      · simp at h
      · have h2 := (Prod.mk.inj h).2
        rw [← h2]
        cases hc : f.marks.get (author, app) with
        | none => simp only [OrdMap.delete_set_new _ _ _ hc]
        | some c => simp only [OrdMap.set_set_back _ _ _ _ hc]

/-- A version no mark is above becomes the mark, and no other mark moves. -/
theorem set_ok {author : Bytes} {app : String} {version : Nat} {persists : Bool}
    {f f' : FreshnessMarks} (h : f.set author app version persists = (.ok (), f'))
    (hv : ∀ m, f.get author app = some m → m ≤ version) :
    f'.get author app = some version ∧ f'.revoked = f.revoked ∧
      ∀ author' app', (author', app') ≠ (author, app) → f'.get author' app' = f.get author' app' := by
  unfold set at h
  split at h
  · simp at h
  · simp only at h
    split at h
    · rename_i hcur
      have h2 := (Prod.mk.inj h).2
      subst h2
      refine ⟨?_, rfl, fun _ _ _ => rfl⟩
      cases hc : f.marks.get (author, app) with
      | none => simp [hc] at hcur
      | some c =>
        simp only [hc, Option.any_some, decide_eq_true_eq] at hcur
        have := hv c hc
        rw [get, hc, Nat.le_antisymm this hcur]
    · split at h
      · have h2 := (Prod.mk.inj h).2
        subst h2
        refine ⟨by simp [get], rfl, fun author' app' hne => ?_⟩
        simp only [get, OrdMap.get_set]
        rw [if_neg hne]
      · simp at h

theorem revoke_error {author : Bytes} {persists : Bool} {f f' : FreshnessMarks} {e : String}
    (h : f.revoke author persists = (.error e, f')) : f' = f := by
  unfold revoke at h
  split at h
  · simp at h
  · rename_i hnot
    simp only at h
    split at h
    · simp at h
    · have h2 := (Prod.mk.inj h).2
      rw [← h2, List.erase_append_right _ (by simpa using hnot)]
      simp

theorem revoke_ok {author : Bytes} {persists : Bool} {f f' : FreshnessMarks}
    (h : f.revoke author persists = (.ok (), f')) :
    f'.marks = f.marks ∧ ∀ a, a ∈ f'.revoked ↔ a ∈ f.revoked ∨ a = author := by
  unfold revoke at h
  split at h
  · rename_i hin
    have h2 := (Prod.mk.inj h).2
    subst h2
    have : author ∈ f.revoked := by simpa using hin
    refine ⟨rfl, fun a => ⟨.inl, ?_⟩⟩
    rintro (ha | rfl)
    · exact ha
    · exact this
  · simp only at h
    split at h
    · have h2 := (Prod.mk.inj h).2
      subst h2
      exact ⟨rfl, fun a => by simp⟩
    · simp at h

end FreshnessMarks

theorem checkHostGates_ok {v : LoadedBundle} {store : FreshnessMarks}
    (h : checkHostGates v store = .ok ()) :
    v.author ∉ store.revoked ∧
      ∀ m, store.get v.author v.manifest.app = some m → m ≤ v.manifest.version := by
  unfold checkHostGates at h
  split at h
  · simp at h
  · rename_i hr
    refine ⟨by simpa [FreshnessMarks.isRevoked] using hr, fun m hm => ?_⟩
    rw [hm] at h
    simp only at h
    split at h
    · simp at h
    · omega

end SeedTransport
