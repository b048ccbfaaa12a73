import SeedTransport.Util
import SeedTransport.Lib.Async

set_option autoImplicit false

namespace SeedTransport

/-! The loader's decisions (`slots.ts`): which host blob each boot runs, and the trial that
commits a staged one or drops it. Every file operation is a wait: it may fail there, or the
process may die there, with the files as they are. -/

open Async Async.Prog

def PLATFORM_ABI : Nat := 1

/-- What a host blob declares about itself. -/
structure HostManifest where
  version : Nat
  abi : Nat
  deriving DecidableEq

/-- A blob of a slot, with the version it declares. -/
structure HostSlot where
  env : Bytes
  version : Nat
  deriving DecidableEq

inductive UpdateMode where
  | off
  | next
  | now
  deriving DecidableEq

inductive SlotName where
  | committed
  | pending
  deriving DecidableEq

/-- The files of `<dir>.host`. `staging` counts the writes of `pending.skb`: it names the
one that is there, for an observer. -/
structure HostFiles where
  committed : Option Bytes
  pending : Option Bytes
  tried : Bool
  staging : Nat
  deriving DecidableEq

def HostFiles.read (f : HostFiles) : SlotName → Option Bytes
  | .committed => f.committed
  | .pending => f.pending

inductive FileOp where
  | mkdir
  | read (name : SlotName)
  | write (name : SlotName)
  | writeTried
  | removePending
  | removeTried
  | sizePending
  | sizeTried
  deriving DecidableEq

/-- The fields of a `Loader`. `trialOf` is the staging its trial came from, and `running`
the blob of the booted host. -/
structure Loader where
  hostArgs : List String
  mode : UpdateMode
  fixed : Option Bytes
  genesis : HostSlot
  trial : Option HostSlot
  trialOf : Nat
  serving : Bool
  bootAfterFlow : Bool
  gen : Nat
  /-- The windows that run. -/
  timers : List Nat
  running : Option Bytes

/-- What happened, for an observer. -/
inductive LoaderMark where
  | process
  /-- `choose` answered `env`: `trial` is the staging it is a trial of, if it is one. -/
  | boot (gen : Nat) (env : Bytes) (trial : Option Nat) (fixed : Option Bytes) (genesis : HostSlot)
      (files : HostFiles)
  | ended (serving : Bool)
  | failed
  | window (gen : Nat)
  | staged (staging : Nat)
  | committed (env : Bytes)
  deriving DecidableEq

structure LoaderState where
  files : HostFiles
  loader : Option Loader
  marks : List LoaderMark

abbrev LoaderProg (α : Type) : Type := Prog LoaderState FileOp Unit α

/-- `--op` and the argument behind it, or `--op=…`, go. -/
def dropOps : Bool → List String → List String
  | _, [] => []
  | afterOp, a :: args =>
    (if a = "--op" ∨ a.startsWith "--op=" ∨ afterOp then [] else [a]) ++ dropOps (a = "--op") args

def withoutOp (args : List String) : List String := dropOps false args

namespace Loader

-- Reading a blob's layout, without authenticating it.
variable (readHostBlob : Bytes → Option HostManifest)

def mark (m : LoaderMark) : LoaderProg Unit :=
  modify fun s => { s with marks := s.marks ++ [m] }

/-- A method runs on the process's loader. -/
def self : LoaderProg Loader := do
  let s ← get
  need s.loader

def set (f : Loader → Loader) : LoaderProg Unit :=
  modify fun s => { s with loader := s.loader.map f }

def onFiles (f : HostFiles → HostFiles) : LoaderProg Unit :=
  modify fun s => { s with files := f s.files }

/-! ### Whole files -/

def read (name : SlotName) : LoaderProg (Option Bytes) := do
  call (.read name)
  let s ← get
  return s.files.read name

def writeCommitted (env : Bytes) : LoaderProg Unit := do
  call (.write .committed)
  onFiles fun f => { f with committed := some env }

def writePending (env : Bytes) : LoaderProg Unit := do
  call (.write .pending)
  onFiles fun f => { f with pending := some env, staging := f.staging + 1 }

def writeTried : LoaderProg Unit := do
  call .writeTried
  onFiles fun f => { f with tried := true }

def removePending : LoaderProg Unit := do
  turn .removePending
  onFiles fun f => { f with pending := none }

def removeTried : LoaderProg Unit := do
  turn .removeTried
  onFiles fun f => { f with tried := false }

def hasPending : LoaderProg Bool := do
  turn .sizePending
  let s ← get
  return s.files.pending.isSome

def hasTried : LoaderProg Bool := do
  turn .sizeTried
  let s ← get
  return s.files.tried

/-! ### The decisions -/

/-- A slot's blob, or nothing when it is absent or not for this loader's ABI. A committed
host that is there but broken throws: it is the floor. -/
def load (name : SlotName) : LoaderProg (Option HostSlot) :=
  attempt (do
    let raw ← read name
    match raw with
    | none => return none
    | some env =>
      let manifest ← need (readHostBlob env)
      if manifest.abi = PLATFORM_ABI then return some ⟨env, manifest.version⟩ else return none)
    (if name = .committed then fail else return none)

/-- The newer of the genesis blob and a committed one. -/
def newer (genesis : HostSlot) : Option HostSlot → HostSlot
  | some c => if genesis.version < c.version then c else genesis
  | none => genesis

def base : LoaderProg HostSlot := do
  let c ← load readHostBlob .committed
  let l ← self
  return newer l.genesis c

def clearPending : LoaderProg Unit := do
  removePending
  removeTried

def discard : LoaderProg Unit := do
  clearPending
  set fun l => { l with trial := none }

/-- `choose()` -/
def choose : LoaderProg Bytes := do
  set fun l => { l with serving := false }
  let l ← self
  match l.fixed with
  | some env => return env
  | none =>
    set fun l => { l with gen := l.gen + 1, trial := none }
    let base ← base readHostBlob
    let there ← hasPending
    if !there then return base.env
    else
      let tried ← hasTried
      if tried then
        discard
        return base.env
      else
        let p ← load readHostBlob .pending
        match p with
        | none =>
          discard
          return base.env
        | some p =>
          if p.version ≤ base.version then
            discard
            return base.env
          else
            let marked ← attempt (do
              writeTried
              return true)
              (return false)
            if !marked then return base.env
            else
              modify fun s => { s with
                loader := s.loader.map fun l => { l with trial := some p, trialOf := s.files.staging } }
              return p.env

/-- Whether `pending.skb` still holds `slot`, rather than a successor staged since. -/
def holdsPending (slot : HostSlot) : LoaderProg Bool := do
  let p ← load readHostBlob .pending
  return (p.map HostSlot.version) == some slot.version

/-- `failed(reason)` -/
def failed : LoaderProg Bool := do
  let l ← self
  match l.trial with
  | none => return false
  | some trial =>
    let holds ← holdsPending readHostBlob trial
    if holds then
      discard
      return true
    else
      set fun l => { l with trial := none }
      return true

/-- `ended(serving)` -/
def ended (serving : Bool) : LoaderProg Bool := do
  set fun l => { l with hostArgs := withoutOp l.hostArgs }
  let l ← self
  let again := serving && l.bootAfterFlow
  set fun l => { l with bootAfterFlow := false, serving := serving && !again }
  if l.trial.isSome && !serving then
    removeTried
    set fun l => { l with trial := none }
    return again
  else if l.trial.isSome && !again then
    set fun l => { l with timers := l.timers ++ [l.gen] }
    return again
  else return again

/-- `commit(gen)`, run by the window of a boot. -/
def commit (gen : Nat) : LoaderProg Unit := do
  let l ← self
  match l.trial with
  | none => return ()
  | some trial =>
    if l.gen ≠ gen then return ()
    else
      let written ← attempt (do
        writeCommitted trial.env
        mark (.committed trial.env)
        return true)
        (return false)
      if !written then return ()
      else
        let holds ← holdsPending readHostBlob trial
        if holds then
          clearPending
          set fun l => { l with trial := none }
        else set fun l => { l with trial := none }

/-- `stage(env)` -/
def stage (env : Bytes) : LoaderProg Bool := do
  let l ← self
  if l.mode = .off then fail
  else
    let _ ← need (readHostBlob env)
    call .mkdir
    writePending env
    removeTried
    let s ← get
    mark (.staged s.files.staging)
    if l.mode ≠ .now then return false
    else
      let l ← self
      if !l.serving then
        set fun l => { l with bootAfterFlow := true }
        return l.serving
      else return l.serving

/-! ### A process -/

/-- What the running host checked of a blob before it staged it (`checkStagedHost`). -/
def checkStagedHost (running env : Bytes) : Bool :=
  match readHostBlob running, readHostBlob env with
  | some self, some h => decide (h.abi = PLATFORM_ABI ∧ self.version < h.version)
  | _, _ => false

/-- A call into the loader, or the end of a window. -/
inductive Turn where
  | choose
  | ended (serving : Bool)
  | failed
  | stage (env : Bytes)
  | window (gen : Nat)

def body : Turn → LoaderProg Unit
  | .choose => do
    set fun l => { l with running := none }
    let env ← choose readHostBlob
    modify fun s =>
      match s.loader with
      | none => s
      | some l => { s with
          loader := some { l with running := some env }
          marks := s.marks ++
            [.boot l.gen env (l.trial.map fun _ => l.trialOf) l.fixed l.genesis s.files] }
  | .ended serving => do
    mark (.ended serving)
    let _ ← ended serving
    return ()
  | .failed => do
    mark .failed
    let _ ← failed readHostBlob
    return ()
  | .stage env => do
    let l ← self
    match l.running with
    | none => return ()
    | some running =>
      if checkStagedHost readHostBlob running env then
        let _ ← stage readHostBlob env
        return ()
      else return ()
  | .window gen => do
    let l ← self
    if gen ∈ l.timers then
      set fun l => { l with timers := l.timers.erase gen }
      mark (.window gen)
      commit readHostBlob gen
    else return ()

/-- `--host` takes a blob of this ABI only. -/
def takesFixed : Option Bytes → Bool
  | none => true
  | some env => ((readHostBlob env).map HostManifest.abi) == some PLATFORM_ABI

/-- A process starts, whatever the one before it was doing; one with a blob it cannot read
ends at once. -/
def start (args : List String) (mode : UpdateMode) (fixed : Option Bytes) (genesis : Bytes)
    (s : LoaderState) : LoaderState :=
  match readHostBlob genesis with
  | none => { s with loader := none, marks := s.marks ++ [.process] }
  | some manifest =>
    if takesFixed readHostBlob fixed then
      { s with
        loader := some
          { hostArgs := args, mode := if fixed.isSome then .off else mode, fixed,
            genesis := ⟨genesis, manifest.version⟩, trial := none, trialOf := 0, serving := false,
            bootAfterFlow := false, gen := 0, timers := [], running := none }
        marks := s.marks ++ [.process] }
    else { s with loader := none, marks := s.marks ++ [.process] }

end Loader

/-- A loader with the file operation it is in. -/
abbrev LoaderMachine : Type := Machine LoaderState FileOp Unit

inductive LoaderEvent where
  | start (args : List String) (mode : UpdateMode) (fixed : Option Bytes) (genesis : Bytes)
  | turn (t : Loader.Turn)
  /-- The file operation ends, done or failed. -/
  | fileDone (ok : Bool)

namespace LoaderMachine

variable (readHostBlob : Bytes → Option HostManifest)

def settle : Out LoaderState FileOp Unit Unit → LoaderMachine
  | .ret _ s => ⟨s, none⟩
  | .err s => ⟨s, none⟩
  | .wait op s k => ⟨s, some (op, k)⟩

def step (m : LoaderMachine) : LoaderEvent → LoaderMachine
  | .start args mode fixed genesis => ⟨Loader.start readHostBlob args mode fixed genesis m.world, none⟩
  | .turn t =>
    match m.waiting with
    | some _ => m
    | none => settle (Loader.body readHostBlob t m.world)
  | .fileDone ok =>
    match m.waiting with
    | none => m
    | some (_, k) => settle (k (if ok then some () else none) m.world)

def init : LoaderMachine := ⟨⟨⟨none, none, false, 0⟩, none, []⟩, none⟩

def run (evs : List LoaderEvent) : LoaderMachine := evs.foldl (step readHostBlob) init

end LoaderMachine

end SeedTransport
