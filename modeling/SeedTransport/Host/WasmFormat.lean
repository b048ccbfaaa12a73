import SeedTransport.Host.WasmLimits

set_option autoImplicit false

namespace SeedTransport

namespace Wasm

/-! What admission takes of modules in the binary format: just those that import nothing but shims, have one memory
and declare maxima within the budget. -/

/-! ### The binary format -/

/-- A number below `2 ^ (7 * k)` in up to `k` bytes, the shortest or not. -/
inductive Leb : Nat → Nat → Bytes → Prop
  | last {k : Nat} {b : UInt8} (h : b.toNat < 128) : Leb (k + 1) b.toNat [b]
  | more {k n : Nat} {b : UInt8} {bs : Bytes} (h : 128 ≤ b.toNat) (rest : Leb k n bs) :
      Leb (k + 1) (b.toNat % 128 + 128 * n) (b :: bs)

/-- `p` reads `x` off these bytes, and leaves what is behind them. -/
def Reads {α : Type} (p : Step α) (bs : Bytes) (x : α) : Prop := ∀ rest, p (bs ++ rest) = .ok (x, rest)

theorem varU32Loop_leb {k n : Nat} {bs : Bytes} (h : Leb k n bs) (result shift : Nat) :
    Reads (varU32Loop k result shift) bs (result + n * 2 ^ shift) := by
  intro rest
  induction h generalizing result shift with
  | @last k b h => simp [varU32Loop, h, Nat.mod_eq_of_lt h]
  | @more k n b bs h _ ih =>
    have hb : ¬b.toNat < 128 := by omega
    simp only [List.cons_append, varU32Loop, hb, if_false, ih]
    congr 2
    rw [Nat.pow_add]
    ring

theorem readVarU32_leb {n : Nat} {bs : Bytes} (h : Leb 5 n bs) : Reads readVarU32 bs n := by
  have := varU32Loop_leb h 0 0
  simpa [readVarU32] using this

inductive Named : Bytes → Bytes → Prop
  | mk {name w : Bytes} (h : Leb 5 name.length w) : Named name (w ++ name)

theorem readName_named {name bs : Bytes} (h : Named name bs) : Reads readName bs name := by
  obtain ⟨hw⟩ := h
  intro rest
  simp only [readName, List.append_assoc, readVarU32_leb hw (name ++ rest)]
  simp

/-- Limits of a plain memory or table: not shared, 32-bit. -/
inductive Limited : Limits → Bytes → Prop
  | least {n : Nat} {w : Bytes} (h : Leb 5 n w) : Limited ⟨n, none⟩ (0 :: w)
  | both {n m : Nat} {w w' : Bytes} (h : Leb 5 n w) (h' : Leb 5 m w') : Limited ⟨n, some m⟩ (1 :: (w ++ w'))

theorem readLimits_limited {l : Limits} {bs : Bytes} (what : Sized) (h : Limited l bs) :
    Reads (readLimits what) bs l := by
  intro rest
  cases h with
  | least h => simp [readLimits, readVarU32_leb h rest]
  | @both n m w w' h h' =>
    have h1 := readVarU32_leb h (w' ++ rest)
    simp [readLimits, h1, readVarU32_leb h' rest]

/-- A table of functions or of host references. -/
inductive Tabled : Limits → Bytes → Prop
  | mk {l : Limits} {reftype : UInt8} {w : Bytes} (hr : reftype = 0x70 ∨ reftype = 0x6f) (h : Limited l w) :
      Tabled l (reftype :: w)

theorem readTableType_tabled {l : Limits} {bs : Bytes} (h : Tabled l bs) : Reads readTableType bs l := by
  obtain ⟨hr, hl⟩ := h
  intro rest
  have hno : ¬(_ ≠ (0x70 : UInt8) ∧ _ ≠ (0x6f : UInt8)) := fun hn => hr.elim hn.1 hn.2
  simp only [readTableType, List.cons_append, hno, if_false]
  exact readLimits_limited .table hl rest

/-- Things one behind the other. -/
inductive Row {α : Type} (wire : α → Bytes → Prop) : List α → Bytes → Prop
  | nil : Row wire [] []
  | cons {x : α} {xs : List α} {b bs : Bytes} (h : wire x b) (hs : Row wire xs bs) : Row wire (x :: xs) (b ++ bs)

theorem readTables_row {ts : List Limits} {bs : Bytes} (h : Row Tabled ts bs) (l : ModuleLimits) :
    Reads (readTables ts.length l) bs (ts.foldl ModuleLimits.addTable l) := by
  intro rest
  induction h generalizing l with
  | nil => rfl
  | @cons t ts b bs h _ ih =>
    rw [List.append_assoc]
    simp only [List.length_cons, readTables, readTableType_tabled h (bs ++ rest), List.foldl_cons]
    exact ih _

/-- An import: what it is called, what kind it is, and its type. -/
structure Import where
  origin : Bytes
  field : Bytes
  kind : UInt8

def Import.name (i : Import) : Bytes := i.origin ++ ascii "." ++ i.field

/-- A runtime shim: a function by one of the names. -/
def Import.Shim (i : Import) : Prop := i.kind = 0 ∧ i.name ∈ MODULE_IMPORTS

/-- The type of a function is an index; that of anything else is anything. -/
inductive Imported : Import → Bytes → Prop
  | mk {i : Import} {wm wf type : Bytes} (hm : Named i.origin wm) (hf : Named i.field wf)
      (ht : i.kind = 0 → ∃ n, Leb 5 n type) : Imported i (wm ++ (wf ++ i.kind :: type))

theorem readImport_imported {i : Import} {bs : Bytes} (h : Imported i bs) :
    (i.Shim → Reads readImport bs ()) ∧
      (¬i.Shim → ∀ rest, readImport (bs ++ rest) = .error (.imports i.name)) := by
  obtain ⟨hm, hf, ht⟩ := h
  refine ⟨fun hs rest => ?_, fun hs rest => ?_⟩
  · obtain ⟨n, hn⟩ := ht hs.1
    have hc : ¬(i.kind ≠ 0 ∨ MODULE_IMPORTS.contains (i.origin ++ ascii "." ++ i.field) = false) := by
      rintro (h | h)
      · exact h hs.1
      · exact absurd (List.contains_iff_mem.mpr hs.2) (by rw [Import.name, h]; simp)
    simp only [readImport, List.append_assoc, readName_named hm _, readName_named hf _, List.cons_append] at hc ⊢
    simp only [hc, if_false, readVarU32_leb hn rest]
  · have hc : i.kind ≠ 0 ∨ MODULE_IMPORTS.contains (i.origin ++ ascii "." ++ i.field) = false := by
      by_contra hno
      push Not at hno
      refine hs ⟨hno.1, List.contains_iff_mem.mp ?_⟩
      simpa [Import.name] using hno.2
    simp only [readImport, List.append_assoc, readName_named hm _, readName_named hf _, List.cons_append] at hc ⊢
    simp only [hc, if_true, Import.name, List.append_assoc]

theorem readImports_row {is : List Import} {bs : Bytes} (h : Row Imported is bs) :
    ((∀ i ∈ is, i.Shim) → Reads (readImports is.length) bs ()) ∧
      ((∃ i ∈ is, ¬i.Shim) → ∀ rest, ∃ name, readImports is.length (bs ++ rest) = .error (.imports name)) := by
  induction h with
  | nil =>
    refine ⟨fun _ _ => rfl, ?_⟩
    rintro ⟨_, hi, -⟩
    exact absurd hi List.not_mem_nil
  | @cons i is b bs h _ ih =>
    obtain ⟨hok, hno⟩ := readImport_imported h
    refine ⟨fun hs rest => ?_, fun hs rest => ?_⟩
    · rw [List.append_assoc]
      simp only [List.length_cons, readImports, hok (hs i List.mem_cons_self) (bs ++ rest)]
      exact ih.1 (fun j hj => hs j (List.mem_cons_of_mem _ hj)) rest
    · rw [List.append_assoc]
      by_cases hi : i.Shim
      · obtain ⟨j, hj, hjs⟩ := hs
        have hj' : j ∈ is := (List.mem_cons.mp hj).resolve_left fun he => hjs (he ▸ hi)
        simp only [List.length_cons, readImports, hok hi (bs ++ rest)]
        exact ih.2 ⟨j, hj', hjs⟩ rest
      · exact ⟨i.name, by simp only [List.length_cons, readImports, hno hi (bs ++ rest)]⟩

inductive Section where
  | imports (is : List Import)
  | tables (ts : List Limits)
  | memories (ms : List Limits)
  | other (id : UInt8) (body : Bytes)

namespace Section

def id : Section → UInt8
  | .imports _ => 2
  | .tables _ => 4
  | .memories _ => 5
  | .other id _ => id

/-- What a walk makes of a section. -/
def charge (l : ModuleLimits) : Section → ModuleLimits
  | .tables ts => ts.foldl ModuleLimits.addTable l
  | .memories ms => { l with memory := ms.head? }
  | _ => l

/-- Imports of shims alone, one memory. -/
def Sound : Section → Prop
  | .imports is => ∀ i ∈ is, i.Shim
  | .memories ms => ms.length = 1
  | _ => True

end Section

/-- What stands in a section. -/
inductive Contents : Section → Bytes → Prop
  | imports {is : List Import} {w bs : Bytes} (hc : Leb 5 is.length w) (h : Row Imported is bs) :
      Contents (.imports is) (w ++ bs)
  | tables {ts : List Limits} {w bs : Bytes} (hc : Leb 5 ts.length w) (h : Row Tabled ts bs) :
      Contents (.tables ts) (w ++ bs)
  | memories {ms : List Limits} {w bs : Bytes} (hc : Leb 5 ms.length w) (h : Row Limited ms bs) :
      Contents (.memories ms) (w ++ bs)
  | other {id : UInt8} {body : Bytes} (h2 : id ≠ 2) (h4 : id ≠ 4) (h5 : id ≠ 5) : Contents (.other id body) body

inductive Sectioned : Section → Bytes → Prop
  | mk {s : Section} {w body : Bytes} (hs : Leb 5 body.length w) (h : Contents s body) :
      Sectioned s (s.id :: (w ++ body))

/-- The bytes of a module of these sections. -/
inductive Module : List Section → Bytes → Prop
  | mk {ss : List Section} {version bs : Bytes} (hv : version.length = 4) (h : Row Sectioned ss bs) :
      Module ss (MAGIC ++ (version ++ bs))

/-- What a module's sections declare. -/
def declared (ss : List Section) : ModuleLimits := ss.foldl Section.charge ⟨none, 0, some 0⟩

/-! ### The walk -/

theorem readSection_sound {s : Section} {body : Bytes} (h : Contents s body) (hs : s.Sound) (l : ModuleLimits)
    (rest : Bytes) : readSection s.id body.length l (body ++ rest) = .ok (s.charge l) := by
  cases h with
  | imports hc h =>
    have hread := (readImports_row h).1 hs rest
    simp only [readSection, Section.id, if_true, List.append_assoc, readVarU32_leb hc _, hread]
    rfl
  | @tables ts w bs hc h =>
    have hread := readTables_row h l rest
    have h24 : ¬((4 : UInt8) = 2) := by decide
    have hlen : ¬rest.length < (w ++ (bs ++ rest)).length - (w ++ bs).length := by
      simp only [List.length_append]
      omega
    simp only [readSection, Section.id, h24, if_false, if_true, List.append_assoc, readVarU32_leb hc _, hread, hlen]
    rfl
  | @memories ms w bs hc h =>
    obtain ⟨m, rfl⟩ := List.length_eq_one_iff.mp hs
    cases h with
    | @cons _ _ b bs' hm hnil =>
      cases hnil
      have hread := readLimits_limited .memory hm rest
      have h52 : ¬((5 : UInt8) = 2) := by decide
      have h54 : ¬((5 : UInt8) = 4) := by decide
      simp only [readSection, Section.id, h52, h54, if_false, if_true, List.append_assoc, readVarU32_leb hc _,
        List.length_singleton, ne_eq, not_true_eq_false, List.nil_append, hread]
      rfl
  | other h2 h4 h5 => simp [readSection, Section.id, h2, h4, h5, Section.charge]

theorem readSection_refused {s : Section} {body : Bytes} (h : Contents s body) (hs : ¬s.Sound) (l : ModuleLimits)
    (rest : Bytes) : ∃ e, readSection s.id body.length l (body ++ rest) = .error e := by
  cases h with
  | imports hc h =>
    simp only [Section.Sound, not_forall] at hs
    obtain ⟨i, hi, hns⟩ := hs
    obtain ⟨name, hread⟩ := (readImports_row h).2 ⟨i, hi, hns⟩ rest
    refine ⟨.imports name, ?_⟩
    simp only [readSection, Section.id, if_true, List.append_assoc, readVarU32_leb hc _, hread]
    rfl
  | @memories ms w bs hc h =>
    have h52 : ¬((5 : UInt8) = 2) := by decide
    have h54 : ¬((5 : UInt8) = 4) := by decide
    have hne : ms.length ≠ 1 := hs
    refine ⟨.memories ms.length, ?_⟩
    simp only [readSection, Section.id, h52, h54, if_false, if_true, List.append_assoc, readVarU32_leb hc _, hne,
      ne_eq, not_false_eq_true]
  | tables => exact absurd trivial hs
  | other => exact absurd trivial hs

theorem row_length {ss : List Section} {bs : Bytes} (h : Row Sectioned ss bs) : ss.length ≤ bs.length := by
  induction h with
  | nil => exact le_rfl
  | cons h _ ih =>
    obtain ⟨-, -⟩ := h
    simp only [List.length_cons, List.length_append]
    omega

section Turn

variable {s : Section} {w body bs : Bytes} {l : ModuleLimits} {n : Nat}

theorem readSections_ok {l' : ModuleLimits} (hw : Leb 5 body.length w)
    (h : readSection s.id body.length l (body ++ bs) = .ok l') :
    readSections (n + 1) l (s.id :: (w ++ body) ++ bs) = readSections n l' bs := by
  have hsize : ¬body.length > (body ++ bs).length := by
    simp only [List.length_append]
    omega
  simp only [List.cons_append, List.append_assoc, readSections, readVarU32_leb hw _, hsize, if_false, h,
    List.drop_left]

theorem readSections_error {e : WasmError} (hw : Leb 5 body.length w)
    (h : readSection s.id body.length l (body ++ bs) = .error e) :
    readSections (n + 1) l (s.id :: (w ++ body) ++ bs) = .error e := by
  have hsize : ¬body.length > (body ++ bs).length := by
    simp only [List.length_append]
    omega
  simp only [List.cons_append, List.append_assoc, readSections, readVarU32_leb hw _, hsize, if_false, h]

end Turn

theorem readSections_row {ss : List Section} {bs : Bytes} (h : Row Sectioned ss bs) {fuel : Nat}
    (hf : ss.length ≤ fuel) (l : ModuleLimits) :
    ((∀ s ∈ ss, s.Sound) → readSections fuel l bs = .ok (ss.foldl Section.charge l)) ∧
      ((∃ s ∈ ss, ¬s.Sound) → ∃ e, readSections fuel l bs = .error e) := by
  induction h generalizing fuel l with
  | nil =>
    refine ⟨fun _ => by simp [readSections], ?_⟩
    rintro ⟨_, hs, -⟩
    exact absurd hs List.not_mem_nil
  | @cons s ss b bs h hrow ih =>
    obtain ⟨n, rfl⟩ := Nat.exists_eq_add_of_le' (Nat.le_trans (Nat.succ_pos _) hf)
    have hfuel : ss.length ≤ n := by simpa using hf
    cases h with
    | mk hw hbody =>
      refine ⟨fun hs => ?_, ?_⟩
      · rw [readSections_ok hw (readSection_sound hbody (hs s List.mem_cons_self) l bs)]
        exact (ih hfuel _).1 fun x hx => hs x (List.mem_cons_of_mem _ hx)
      · rintro ⟨x, hx, hns⟩
        by_cases hsound : s.Sound
        · have hx' : x ∈ ss := (List.mem_cons.mp hx).resolve_left fun he => hns (he ▸ hsound)
          rw [readSections_ok hw (readSection_sound hbody hsound l bs)]
          exact (ih hfuel _).2 ⟨x, hx', hns⟩
        · obtain ⟨e, he⟩ := readSection_refused hbody hsound l bs
          exact ⟨e, readSections_error hw he⟩

/-- A module is read exactly where all its sections are sound, and then for what they declare. -/
theorem readModuleLimits_module {ss : List Section} {wasm : Bytes} (h : Module ss wasm) (l : ModuleLimits) :
    readModuleLimits wasm = .ok l ↔ (∀ s ∈ ss, s.Sound) ∧ l = declared ss := by
  obtain ⟨hv, hrow⟩ := h
  rename_i version bs
  have hlen : ¬(MAGIC ++ (version ++ bs)).length < 8 := by
    simp only [List.length_append, hv, MAGIC, List.length_cons, List.length_nil]
    omega
  have htake : (MAGIC ++ (version ++ bs)).take 4 = MAGIC := List.take_left' rfl
  have hdrop : (MAGIC ++ (version ++ bs)).drop 8 = bs := by
    rw [← List.append_assoc]
    exact List.drop_left' (by simp [MAGIC, hv])
  have hfuel : ss.length ≤ (MAGIC ++ (version ++ bs)).length := by
    have := row_length hrow
    simp only [List.length_append]
    omega
  obtain ⟨hok, hno⟩ := readSections_row hrow hfuel ⟨none, 0, some 0⟩
  simp only [readModuleLimits, hlen, if_false, htake, ne_eq, not_true_eq_false, hdrop]
  constructor
  · intro hl
    have hs : ∀ s ∈ ss, s.Sound := by
      by_contra hns
      push Not at hns
      obtain ⟨e, he⟩ := hno hns
      rw [he] at hl
      cases hl
    rw [hok hs] at hl
    exact ⟨hs, (Except.ok.inj hl).symm⟩
  · rintro ⟨hs, rfl⟩
    exact hok hs

/-! ### Admission -/

/-- Limits that admission takes: every maximum is declared, and either way of counting fits. -/
structure Fits (maxBytes : Nat) (l : ModuleLimits) : Prop where
  memory : ∀ m, l.memory = some m → m.max ≠ none
  tables : l.maxTableElements ≠ none
  initial : initialBytes l ≤ maxBytes
  most : moduleFootprintBytes l ≤ maxBytes

theorem leb_small {n : Nat} (h : n < 128) : Leb 5 n [UInt8.ofNat n] := by
  have hn : (UInt8.ofNat n).toNat = n := UInt8.toNat_ofNat_of_lt' (by simp only [UInt8.size]; omega)
  have hl := @Leb.last 4 (UInt8.ofNat n) (by rwa [hn])
  rwa [hn] at hl

theorem sectioned_small {s : Section} {body : Bytes} (h : Contents s body) (hl : body.length < 128) :
    Sectioned s (s.id :: ([UInt8.ofNat body.length] ++ body)) := .mk (leb_small hl) h

/-- A shim, a table of up to three functions and a memory of up to two pages. -/
def small : List Section :=
  [.imports [⟨ascii "env", ascii "abort", 0⟩], .tables [⟨1, some 3⟩], .memories [⟨1, some 2⟩]]

theorem small_limits {n m : Nat} (hn : n < 128) (hm : m < 128) :
    Limited ⟨n, some m⟩ (1 :: ([UInt8.ofNat n] ++ [UInt8.ofNat m])) := .both (leb_small hn) (leb_small hm)

theorem small_module : ∃ wasm, Module small wasm := by
  have hshim : Imported ⟨ascii "env", ascii "abort", 0⟩
      (([UInt8.ofNat 3] ++ ascii "env") ++ (([UInt8.ofNat 5] ++ ascii "abort") ++ 0 :: [UInt8.ofNat 0])) :=
    .mk ⟨leb_small (by decide)⟩ ⟨leb_small (by decide)⟩ fun _ => ⟨0, leb_small (by decide)⟩
  have htable : Tabled ⟨1, some 3⟩ (0x70 :: 1 :: ([UInt8.ofNat 1] ++ [UInt8.ofNat 3])) :=
    .mk (.inl rfl) (small_limits (by decide) (by decide))
  have hpages := @small_limits 1 2 (by decide) (by decide)
  have himports := Contents.imports (leb_small (by decide)) (.cons hshim .nil)
  have htables := Contents.tables (leb_small (by decide)) (.cons htable .nil)
  have hmemory := Contents.memories (leb_small (by decide)) (.cons hpages .nil)
  have hversion : ([1, 0, 0, 0] : Bytes).length = 4 := rfl
  exact ⟨_, .mk hversion (.cons (sectioned_small himports (by decide))
    (.cons (sectioned_small htables (by decide)) (.cons (sectioned_small hmemory (by decide)) .nil)))⟩

theorem small_sound : ∀ s ∈ small, s.Sound := by
  intro s hs
  simp only [small, List.mem_cons, List.not_mem_nil, or_false] at hs
  obtain rfl | rfl | rfl := hs
  · intro i hi
    rw [List.mem_singleton.mp hi]
    exact ⟨rfl, by decide⟩
  · trivial
  · rfl

theorem small_fits : Fits DEFAULT_MAX_MODULE_MEMORY_BYTES (declared small) where
  memory m hm := by
    cases hm
    exact Option.some_ne_none 2
  tables := Option.some_ne_none 3
  initial := by decide
  most := by decide

/-- A module is admitted exactly where its sections are sound and what they declare fits, and then with just that. -/
theorem module_admitted {ss : List Section} {wasm : Bytes} (h : Module ss wasm) (maxBytes : Nat)
    (l : ModuleLimits) : checkModuleLimits wasm maxBytes = .ok l ↔
      (∀ s ∈ ss, s.Sound) ∧ l = declared ss ∧ Fits maxBytes (declared ss) := by
  have hread := readModuleLimits_module h
  constructor
  · intro hl
    unfold checkModuleLimits at hl
    split at hl
    · cases hl
    · next l' hl' =>
      obtain ⟨hs, rfl⟩ := (hread l').mp hl'
      split_ifs at hl with hm ht hi hf
      obtain rfl := Except.ok.inj hl
      refine ⟨hs, rfl, ⟨fun m hmem hnone => hm ?_, fun hnone => ht ?_, Nat.le_of_not_lt hi, Nat.le_of_not_lt hf⟩⟩
      · simp [hmem, hnone]
      · simp [hnone]
  · rintro ⟨hs, rfl, hfits⟩
    have hm : ¬(declared ss).memory.any (·.max.isNone) = true := by
      cases hmem : (declared ss).memory with
      | none => simp
      | some m =>
        obtain ⟨x, hx⟩ := Option.ne_none_iff_exists'.mp (hfits.memory m hmem)
        simp [hx]
    have ht : ¬(declared ss).maxTableElements.isNone = true := by
      simpa using hfits.tables
    have hi : ¬initialBytes (declared ss) > maxBytes := Nat.not_lt.mpr hfits.initial
    have hf : ¬moduleFootprintBytes (declared ss) > maxBytes := Nat.not_lt.mpr hfits.most
    simp only [checkModuleLimits, (hread _).mpr ⟨hs, rfl⟩, hm, ht, hi, hf, Bool.false_eq_true, if_false]

theorem module_admitted_small : ∃ wasm, Module small wasm ∧
    checkModuleLimits wasm DEFAULT_MAX_MODULE_MEMORY_BYTES = .ok (declared small) := by
  obtain ⟨wasm, h⟩ := small_module
  exact ⟨wasm, h, (module_admitted h _ _).mpr ⟨small_sound, rfl, small_fits⟩⟩

/-! ### What a module may grow to -/

namespace Section

def pages : Section → Nat
  | .memories ms => (ms.map fun m => m.max.getD 0).sum
  | _ => 0

def elements : Section → Nat
  | .tables ts => (ts.map fun t => t.max.getD 0).sum
  | _ => 0

/-- The bytes of its memories and tables, at their maxima. -/
def most (s : Section) : Nat := s.pages * WASM_PAGE_BYTES + s.elements * WASM_TABLE_ELEMENT_BYTES

def isMemory : Section → Bool
  | .memories _ => true
  | _ => false

end Section

theorem addTables_max {ts : List Limits} {l : ModuleLimits} {n : Nat}
    (h : (ts.foldl ModuleLimits.addTable l).maxTableElements = some n) :
    ∃ m, l.maxTableElements = some m ∧ n = m + (ts.map fun t => t.max.getD 0).sum := by
  induction ts generalizing l with
  | nil => exact ⟨n, h, rfl⟩
  | cons t ts ih =>
    obtain ⟨m, hm, rfl⟩ := ih h
    obtain ⟨a, ha, hrest⟩ := Option.bind_eq_some_iff.mp hm
    obtain ⟨x, hx, rfl⟩ := Option.map_eq_some_iff.mp hrest
    refine ⟨a, ha, ?_⟩
    simp only [List.map_cons, List.sum_cons, hx, Option.getD_some]
    omega

theorem addTables_memory (ts : List Limits) (l : ModuleLimits) :
    (ts.foldl ModuleLimits.addTable l).memory = l.memory := by
  induction ts generalizing l with
  | nil => rfl
  | cons t ts ih => exact ih _

theorem charge_tables {s : Section} {l : ModuleLimits} {n : Nat} (h : (s.charge l).maxTableElements = some n) :
    ∃ m, l.maxTableElements = some m ∧ n = m + s.elements := by
  cases s with
  | tables ts => exact addTables_max h
  | _ => exact ⟨n, h, rfl⟩

theorem charges_tables {ss : List Section} {l : ModuleLimits} {n : Nat}
    (h : (ss.foldl Section.charge l).maxTableElements = some n) :
    ∃ m, l.maxTableElements = some m ∧ n = m + (ss.map Section.elements).sum := by
  induction ss generalizing l with
  | nil => exact ⟨n, h, rfl⟩
  | cons s ss ih =>
    obtain ⟨m, hm, rfl⟩ := ih h
    obtain ⟨a, ha, rfl⟩ := charge_tables hm
    refine ⟨a, ha, ?_⟩
    simp only [List.map_cons, List.sum_cons]
    omega

theorem charges_no_memory {ss : List Section} (h : ∀ s ∈ ss, s.isMemory = false) (l : ModuleLimits) :
    (ss.foldl Section.charge l).memory = l.memory ∧ (ss.map Section.pages).sum = 0 := by
  induction ss generalizing l with
  | nil => exact ⟨rfl, rfl⟩
  | cons s ss ih =>
    obtain ⟨hmem, hsum⟩ := ih (fun x hx => h x (List.mem_cons_of_mem _ hx)) (s.charge l)
    have hs := h s List.mem_cons_self
    cases s with
    | memories => exact absurd hs (by simp [Section.isMemory])
    | tables ts => exact ⟨hmem.trans (addTables_memory ts l), by simpa [Section.pages] using hsum⟩
    | _ => exact ⟨hmem, by simpa [Section.pages] using hsum⟩

theorem charges_memory {ss : List Section} (hs : ∀ s ∈ ss, s.Sound) (hlone : ss.countP Section.isMemory ≤ 1)
    {l : ModuleLimits} (hl : l.memory = none) :
    (((ss.foldl Section.charge l).memory.bind Limits.max).getD 0) = (ss.map Section.pages).sum := by
  induction ss generalizing l with
  | nil => simp [hl]
  | cons s ss ih =>
    have hss : ∀ x ∈ ss, x.Sound := fun x hx => hs x (List.mem_cons_of_mem _ hx)
    have hsound := hs s List.mem_cons_self
    cases s with
    | memories ms =>
      obtain ⟨m, rfl⟩ := List.length_eq_one_iff.mp hsound
      have hnone : ∀ x ∈ ss, x.isMemory = false := by
        have hz : ss.countP Section.isMemory = 0 := by
          simp only [List.countP_cons, Section.isMemory, if_true] at hlone
          omega
        exact fun x hx => Bool.eq_false_iff.mpr (List.countP_eq_zero.mp hz x hx)
      obtain ⟨hmem, hsum⟩ := charges_no_memory hnone (Section.charge l (.memories [m]))
      rw [List.foldl_cons, hmem, List.map_cons, List.sum_cons, hsum]
      simp [Section.charge, Section.pages]
    | tables ts =>
      have hlone' : ss.countP Section.isMemory ≤ 1 := by simpa [List.countP_cons, Section.isMemory] using hlone
      refine (ih hss hlone' ((addTables_memory ts l).trans hl)).trans ?_
      simp [Section.pages]
    | _ =>
      have hlone' : ss.countP Section.isMemory ≤ 1 := by simpa [List.countP_cons, Section.isMemory] using hlone
      refine (ih hss hlone' hl).trans ?_
      simp [Section.pages]

/-- What a module of one memory at most is charged for is what its memories and tables may grow to. -/
theorem footprint_declared {ss : List Section} (hs : ∀ s ∈ ss, s.Sound) (hlone : ss.countP Section.isMemory ≤ 1)
    (ht : (declared ss).maxTableElements ≠ none) :
    moduleFootprintBytes (declared ss) = (ss.map Section.most).sum := by
  obtain ⟨n, hn⟩ := Option.ne_none_iff_exists'.mp ht
  obtain ⟨m, hm, rfl⟩ := charges_tables hn
  obtain rfl : 0 = m := Option.some.inj hm
  have hpages := charges_memory hs hlone (l := ⟨none, 0, some 0⟩) rfl
  have hmost : (ss.map Section.most).sum =
      (ss.map Section.pages).sum * WASM_PAGE_BYTES + (ss.map Section.elements).sum * WASM_TABLE_ELEMENT_BYTES := by
    clear hs hlone ht hn hm hpages
    induction ss with
    | nil => rfl
    | cons s ss ih =>
      simp only [List.map_cons, List.sum_cons, ih, Section.most]
      ring
  rw [hmost, moduleFootprintBytes, hn, ← hpages]
  simp [declared]

/-- A bundle's modules are admitted exactly where each is, and what all of them may grow to together is within the
budget; it is the sum that is charged. -/
theorem bundle_admitted {maxBytes acc total : Nat} (mods : List (List Section × Bytes))
    (hm : ∀ m ∈ mods, Module m.1 m.2 ∧ m.1.countP Section.isMemory ≤ 1) (hacc : acc ≤ maxBytes) :
    admitModules maxBytes acc (mods.map Prod.snd) = .ok total ↔
      (∀ m ∈ mods, (∀ s ∈ m.1, s.Sound) ∧ Fits maxBytes (declared m.1)) ∧
        total = acc + (mods.map fun m => (m.1.map Section.most).sum).sum ∧ total ≤ maxBytes := by
  induction mods generalizing acc with
  | nil =>
    simp only [List.map_nil, admitModules, List.sum_nil, Except.ok.injEq]
    constructor
    · rintro rfl
      exact ⟨fun _ h => absurd h List.not_mem_nil, rfl, hacc⟩
    · rintro ⟨-, rfl, -⟩
      rfl
  | cons m mods ih =>
    obtain ⟨hmod, hlone⟩ := hm m List.mem_cons_self
    have hrest : ∀ x ∈ mods, Module x.1 x.2 ∧ x.1.countP Section.isMemory ≤ 1 :=
      fun x hx => hm x (List.mem_cons_of_mem _ hx)
    have hcheck := module_admitted hmod maxBytes
    simp only [List.map_cons, List.sum_cons, List.forall_mem_cons]
    constructor
    · intro hok
      unfold admitModules at hok
      split at hok
      · cases hok
      · next l hl =>
        obtain ⟨hs, rfl, hfits⟩ := (hcheck l).mp hl
        dsimp only at hok
        rw [footprint_declared hs hlone hfits.tables] at hok
        split_ifs at hok with hover
        obtain ⟨hall, htotal, hle⟩ := (ih hrest (Nat.le_of_not_lt hover)).mp hok
        exact ⟨⟨⟨hs, hfits⟩, hall⟩, by omega, hle⟩
    · rintro ⟨⟨⟨hs, hfits⟩, hall⟩, htotal, hle⟩
      have hfoot := footprint_declared hs hlone hfits.tables
      have hover : ¬acc + (m.1.map Section.most).sum > maxBytes := by omega
      simp only [admitModules, (hcheck _).mpr ⟨hs, rfl, hfits⟩, hfoot, hover, if_false]
      exact (ih hrest (Nat.le_of_not_lt hover)).mpr ⟨hall, by omega, hle⟩

theorem bundle_admitted_small : ∃ wasm, Module small wasm ∧
    admitModules DEFAULT_MAX_MODULE_MEMORY_BYTES 0 [wasm, wasm] = .ok (2 * (2 * 65536 + 3 * 32)) := by
  obtain ⟨wasm, h⟩ := small_module
  have hmost : (small.map Section.most).sum = 2 * 65536 + 3 * 32 := by decide
  refine ⟨wasm, h, (bundle_admitted [(small, wasm), (small, wasm)] ?_ (Nat.zero_le _)).mpr ⟨?_, ?_, by decide⟩⟩
  · intro m hm
    simp only [List.mem_cons, List.not_mem_nil, or_false, or_self] at hm
    subst hm
    exact ⟨h, (by decide : small.countP Section.isMemory ≤ 1)⟩
  · intro m hm
    simp only [List.mem_cons, List.not_mem_nil, or_false, or_self] at hm
    subst hm
    exact ⟨small_sound, small_fits⟩
  · simp only [List.map_cons, List.map_nil, List.sum_cons, List.sum_nil, hmost]
    rfl

end Wasm

end SeedTransport
