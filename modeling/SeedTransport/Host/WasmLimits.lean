import SeedTransport.Util

set_option autoImplicit false

namespace SeedTransport

namespace Wasm

/-! A module's memory bounds, read off its bytes before it is instantiated (`host/wasm-limits.ts`), and the admission
of a bundle's modules (`loadBundleModules` of `host/bundle.ts`). -/

def WASM_PAGE_BYTES : Nat := 65536

def WASM_TABLE_ELEMENT_BYTES : Nat := 32

def DEFAULT_MAX_MODULE_MEMORY_BYTES : Nat := 64 * 1024 * 1024

/-- What has limits. -/
inductive Sized where
  | memory
  | table
  deriving DecidableEq

inductive WasmError where
  | tooShort
  | badMagic
  | truncatedLeb
  | longLeb
  | truncatedName
  | truncatedImport
  | imports (name : Bytes)
  | truncatedLimits (what : Sized)
  | shared (what : Sized)
  | limitsFlags (what : Sized) (flags : UInt8)
  | truncatedTable
  | elementType (reftype : UInt8)
  | truncatedSection
  | truncatedTables
  | memories (count : Nat)
  | noMemoryMaximum
  | noTableMaximum
  | initialAbove (bytes maxBytes : Nat)
  | maximumAbove (bytes maxBytes : Nat)
  | bundleAbove (bytes maxBytes : Nat)
  deriving DecidableEq

/-- A `limits` record. -/
structure Limits where
  initial : Nat
  max : Option Nat
  deriving DecidableEq

structure ModuleLimits where
  memory : Option Limits
  initialTableElements : Nat
  maxTableElements : Option Nat
  deriving DecidableEq

/-- A reader of what is left from a cursor on. -/
abbrev Step (α : Type) : Type := Bytes → Except WasmError (α × Bytes)

/-- The loop of `readVarU32`, with `n` bytes to go. -/
def varU32Loop : Nat → Nat → Nat → Step Nat
  | 0, _, _, _ => .error .longLeb
  | _ + 1, _, _, [] => .error .truncatedLeb
  | n + 1, result, shift, byte :: c =>
    let result := result + byte.toNat % 128 * 2 ^ shift
    if byte.toNat < 128 then .ok (result, c) else varU32Loop n result (shift + 7) c

def readVarU32 : Step Nat := varU32Loop 5 0 0

def readName : Step Bytes := fun c =>
  match readVarU32 c with
  | .error e => .error e
  | .ok (len, c) => if len > c.length then .error .truncatedName else .ok (c.take len, c.drop len)

def ascii (s : String) : Bytes := s.toList.map fun ch => UInt8.ofNat ch.toNat

/-- The runtime shims. -/
def MODULE_IMPORTS : List Bytes := [ascii "env.abort", ascii "env.seed", ascii "env.trace"]

def readLimits (what : Sized) : Step Limits
  | [] => .error (.truncatedLimits what)
  | flags :: c =>
    if flags.toNat / 2 % 2 = 1 then .error (.shared what)
    else if flags.toNat / 2 ≠ 0 then .error (.limitsFlags what flags)
    else
      match readVarU32 c with
      | .error e => .error e
      | .ok (initial, c) =>
        if flags.toNat % 2 = 1 then
          match readVarU32 c with
          | .error e => .error e
          | .ok (max, c) => .ok (⟨initial, some max⟩, c)
        else .ok (⟨initial, none⟩, c)

def readTableType : Step Limits
  | [] => .error .truncatedTable
  | reftype :: c =>
    if reftype ≠ 0x70 ∧ reftype ≠ 0x6f then .error (.elementType reftype) else readLimits .table c

/-- One import: its module, its name, a function of the host's. -/
def readImport : Step Unit := fun c =>
  match readName c with
  | .error e => .error e
  | .ok (origin, c) =>
    match readName c with
    | .error e => .error e
    | .ok (field, c) =>
      let name := origin ++ ascii "." ++ field
      match c with
      | [] => .error .truncatedImport
      | kind :: c =>
        if kind ≠ 0 ∨ MODULE_IMPORTS.contains name = false then .error (.imports name)
        else
          match readVarU32 c with
          | .error e => .error e
          | .ok (_, c) => .ok ((), c)

def readImports : Nat → Step Unit
  | 0, c => .ok ((), c)
  | count + 1, c =>
    match readImport c with
    | .error e => .error e
    | .ok (_, c) => readImports count c

/-- A table is charged. -/
def ModuleLimits.addTable (l : ModuleLimits) (t : Limits) : ModuleLimits :=
  { l with
    initialTableElements := l.initialTableElements + t.initial
    maxTableElements := l.maxTableElements.bind fun m => t.max.map fun x => m + x }

def readTables : Nat → ModuleLimits → Step ModuleLimits
  | 0, l, c => .ok (l, c)
  | count + 1, l, c =>
    match readTableType c with
    | .error e => .error e
    | .ok (t, c) => readTables count (l.addTable t) c

/-- What a section says, its `size` bytes and all behind them in `c`. -/
def readSection (id : UInt8) (size : Nat) (l : ModuleLimits) (c : Bytes) : Except WasmError ModuleLimits :=
  if id = 2 then
    match readVarU32 c with
    | .error e => .error e
    | .ok (count, c) => (readImports count c).map fun _ => l
  else if id = 4 then
    match readVarU32 c with
    | .error e => .error e
    | .ok (count, d) =>
      match readTables count l d with
      | .error e => .error e
      | .ok (l, d) => if d.length < c.length - size then .error .truncatedTables else .ok l
  else if id = 5 then
    match readVarU32 c with
    | .error e => .error e
    | .ok (count, c) =>
      if count ≠ 1 then .error (.memories count)
      else (readLimits .memory c).map fun m => { l with memory := some m.1 }
  else .ok l

/-- The walk over the sections; every one takes a byte of the fuel at least. -/
def readSections : Nat → ModuleLimits → Bytes → Except WasmError ModuleLimits
  | _, l, [] => .ok l
  | 0, _, _ :: _ => .error .truncatedSection
  | fuel + 1, l, id :: c =>
    match readVarU32 c with
    | .error e => .error e
    | .ok (size, c) =>
      if size > c.length then .error .truncatedSection
      else
        match readSection id size l c with
        | .error e => .error e
        | .ok l => readSections fuel l (c.drop size)

def MAGIC : Bytes := [0x00, 0x61, 0x73, 0x6d]

def readModuleLimits (wasm : Bytes) : Except WasmError ModuleLimits :=
  if wasm.length < 8 then .error .tooShort
  else if wasm.take 4 ≠ MAGIC then .error .badMagic
  else readSections wasm.length ⟨none, 0, some 0⟩ (wasm.drop 8)

def moduleFootprintBytes (l : ModuleLimits) : Nat :=
  ((l.memory.bind Limits.max).getD 0) * WASM_PAGE_BYTES + l.maxTableElements.getD 0 * WASM_TABLE_ELEMENT_BYTES

/-- What it allocates as it starts. -/
def initialBytes (l : ModuleLimits) : Nat :=
  (l.memory.map Limits.initial).getD 0 * WASM_PAGE_BYTES + l.initialTableElements * WASM_TABLE_ELEMENT_BYTES

def checkModuleLimits (wasm : Bytes) (maxBytes : Nat) : Except WasmError ModuleLimits :=
  match readModuleLimits wasm with
  | .error e => .error e
  | .ok l =>
    if l.memory.any (·.max.isNone) then .error .noMemoryMaximum
    else if l.maxTableElements.isNone then .error .noTableMaximum
    else if initialBytes l > maxBytes then .error (.initialAbove (initialBytes l) maxBytes)
    else if moduleFootprintBytes l > maxBytes then .error (.maximumAbove (moduleFootprintBytes l) maxBytes)
    else .ok l

/-- `loadBundleModules` up to the build, with `bundleBytes` charged so far. -/
def admitModules (maxBytes : Nat) : Nat → List Bytes → Except WasmError Nat
  | bundleBytes, [] => .ok bundleBytes
  | bundleBytes, wasm :: modules =>
    match checkModuleLimits wasm maxBytes with
    | .error e => .error e
    | .ok l =>
      let bundleBytes := bundleBytes + moduleFootprintBytes l
      if bundleBytes > maxBytes then .error (.bundleAbove bundleBytes maxBytes)
      else admitModules maxBytes bundleBytes modules

end Wasm

end SeedTransport
