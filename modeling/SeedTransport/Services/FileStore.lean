import SeedTransport.Host.Install

set_option autoImplicit false

namespace SeedTransport

/-! The `fs` service: the key rule and the scope of each app (`services/fs.ts`), over the store
of one flat file per key (`services/fs-files.ts`) and whole files in a map or a directory
(`services/fs-memory.ts`, `services/fs-node.ts`). -/

namespace FileStore

abbrev Name := List Char

/-- The failures of a store; what a text of one quotes is its argument. -/
inductive FsError where
  | unsafeKey (key : Name)
  | unsafeScope (scope : Name)
  | tooLarge (name : Name) (max : Nat)
  | entryQuota
  | byteQuota
  deriving DecidableEq

/-! ### The key rule -/

def isSafeChar (c : Char) : Bool := c.isAlphanum || c == '.' || c == '_' || c == '-'

/-- The key charset, of a text that is not empty. -/
def SAFE_CHARS (s : Name) : Bool := !s.isEmpty && s.all isSafeChar

def RESERVED_DEVICE_NAMES : List Name :=
  ["CON".toList, "PRN".toList, "AUX".toList, "NUL".toList] ++
    (List.range 10).flatMap fun i =>
      let digit := Char.ofNat ('0'.toNat + i)
      ["COM".toList ++ [digit], "LPT".toList ++ [digit]]

/-- The stem before the first `.` decides. -/
def isReservedDeviceName (key : Name) : Bool :=
  RESERVED_DEVICE_NAMES.contains ((key.takeWhile (· ≠ '.')).map Char.toUpper)

def isSafeFsKey (key : Name) : Bool :=
  key != ['.'] && key != ['.', '.'] && SAFE_CHARS key && !isReservedDeviceName key

def isSafeFsScope (scope : Name) : Bool := SAFE_CHARS scope

/-! ### Whole files -/

/-- The files of one directory, by name. A directory on disk lists them sorted and has no
quota of its own; a map lists them in the order they were made. -/
structure RawFiles where
  files : OrdMap Name Bytes
  sorted : Bool
  maxBytes : Option Nat
  maxEntries : Option Nat

namespace RawFiles

/-- A whole file; one larger than `maxBytes` throws. -/
def read (r : RawFiles) (name : Name) (maxBytes : Nat) : Except FsError (Option Bytes) :=
  match r.files.get name with
  | none => .ok none
  | some b => if maxBytes < b.length then .error (.tooLarge name maxBytes) else .ok (some b)

/-- Why a write is refused, as a full disk refuses one: before anything changes. -/
def refusal (r : RawFiles) (name : Name) (bytes : Bytes) : Option FsError :=
  let previous := r.files.get name
  let next := r.files.sum (·.2.length) - (previous.elim 0 List.length) + bytes.length
  if previous = none ∧ r.maxEntries.any (· ≤ r.files.size) then some .entryQuota
  else if r.maxBytes.any (· < next) then some .byteQuota
  else none

def write (r : RawFiles) (name : Name) (bytes : Bytes) : Except FsError Unit × RawFiles :=
  match r.refusal name bytes with
  | some e => (.error e, r)
  | none => (.ok (), { r with files := r.files.set name bytes })

def remove (r : RawFiles) (name : Name) : Bool × RawFiles :=
  (r.files.has name, { r with files := r.files.delete name })

def size (r : RawFiles) (name : Name) : Int := (r.files.get name).elim (-1) fun b => b.length

/-- The names in the order of the platform. -/
def order (sorted : Bool) (names : List Name) : List Name :=
  if sorted then names.mergeSort (fun a b => decide (a ≤ b)) else names

/-- The names, `\n`-joined. -/
def list (r : RawFiles) : Name := ['\n'].intercalate (order r.sorted r.files.keys)

end RawFiles

/-! ### One file per key -/

def MAX_VALUE_BYTES : Nat := 16 * 2 ^ 20

/-- `used` is -1 until the first scan. -/
structure FilesFs where
  raw : RawFiles
  used : Int

namespace FilesFs

/-- A key with a separator would escape the directory. -/
def path (key : Name) : Except FsError Name :=
  if key = [] ∨ key = ['.'] ∨ key = ['.', '.'] ∨ '/' ∈ key ∨ '\\' ∈ key then .error (.unsafeKey key)
  else .ok key

/-- Whether a name is of a platform's temp file. -/
def isTemp (name : Name) : Bool := name.head? == some '~'

/-- An empty listing is no names. -/
def names (r : RawFiles) : List Name :=
  let s := r.list
  if s = [] then [] else s.splitOn '\n'

/-- The loop of `scan`, which reclaims temp files and adds up the rest. -/
def scanNames : List Name → RawFiles → Int → Except FsError Int × RawFiles
  | [], r, used => (.ok used, r)
  | n :: ns, r, used =>
    match path n with
    | .error e => (.error e, r)
    | .ok p =>
      if isTemp n then scanNames ns (r.remove p).2 used
      else scanNames ns r (used + max 0 (r.size p))

/-- One scan of the directory, before the first mutation. -/
def scan (f : FilesFs) : Except FsError Unit × FilesFs :=
  if 0 ≤ f.used then (.ok (), f)
  else
    match scanNames (names f.raw) f.raw 0 with
    | (.error e, r) => (.error e, { f with raw := r })
    | (.ok used, r) => (.ok (), { raw := r, used := used })

def get (key : Name) (f : FilesFs) : Option Bytes :=
  match path key with
  | .error _ => none
  | .ok p =>
    match f.raw.read p MAX_VALUE_BYTES with
    | .error _ => none
    | .ok b => b

def put (key : Name) (bytes : Bytes) (f : FilesFs) : Except FsError Unit × FilesFs :=
  match path key with
  | .error e => (.error e, f)
  | .ok p =>
    match f.scan with
    | (.error e, f) => (.error e, f)
    | (.ok (), f) =>
      let old := max 0 (f.raw.size p)
      match f.raw.write p bytes with
      | (.error e, r) => (.error e, { f with raw := r })
      | (.ok (), r) => (.ok (), { raw := r, used := f.used + (bytes.length - old) })

def size (key : Name) (f : FilesFs) : Int :=
  match path key with
  | .error _ => -1
  | .ok p => f.raw.size p

/-- Every name that is not a temp file's, or those with a prefix that is not empty. -/
def list (under : Option Name) (f : FilesFs) : List Name :=
  let ns := (names f.raw).filter fun n => !isTemp n
  match under with
  | some (c :: cs) => ns.filter ((c :: cs).isPrefixOf ·)
  | _ => ns

def delete (key : Name) (f : FilesFs) : Bool × FilesFs :=
  match path key with
  | .error _ => (false, f)
  | .ok p =>
    match f.scan with
    | (.error _, f) => (false, f)
    | (.ok (), f) =>
      let old := max 0 (f.raw.size p)
      match f.raw.remove p with
      | (false, r) => (false, { f with raw := r })
      | (true, r) => (true, { raw := r, used := f.used - old })

end FilesFs

/-! ### One app's view -/

/-- The storage seam, over a backend of type `σ`. -/
structure Fs (σ : Type) where
  get : Name → σ → Except FsError (Option Bytes)
  put : Name → Bytes → σ → Except FsError Unit × σ
  size : Name → σ → Except FsError Int
  list : Option Name → σ → Except FsError (List Name)
  delete : Name → σ → Except FsError Bool × σ

def filesFs : Fs FilesFs where
  get key f := .ok (f.get key)
  put key bytes f := f.put key bytes
  size key f := .ok (f.size key)
  list under f := .ok (f.list under)
  delete key f := (.ok (f.delete key).1, (f.delete key).2)

variable {σ : Type}

def check (key : Name) : Except FsError Name :=
  if isSafeFsKey key then .ok key else .error (.unsafeKey key)

/-- Apply the key rule over a backend; `list` is exempt. -/
def validatedFs (inner : Fs σ) : Fs σ where
  get key s := check key >>= fun key => inner.get key s
  put key bytes s :=
    match check key with
    | .ok key => inner.put key bytes s
    | .error e => (.error e, s)
  size key s := check key >>= fun key => inner.size key s
  list under s := inner.list under s
  delete key s :=
    match check key with
    | .ok key => inner.delete key s
    | .error e => (.error e, s)

/-- Scope a backend to one app's keyspace. -/
def scopedFs (inner : Fs σ) (scope : Name) : Except FsError (Fs σ) :=
  if isSafeFsScope scope then
    .ok {
      get := fun key s => inner.get (scope ++ key) s
      put := fun key bytes s => inner.put (scope ++ key) bytes s
      size := fun key s => inner.size (scope ++ key) s
      list := fun under s =>
        (inner.list (some (scope ++ under.getD [])) s).map (·.map (·.drop scope.length))
      delete := fun key s => inner.delete (scope ++ key) s }
  else .error (.unsafeScope scope)

/-- The prefix of one app label. -/
def appScopeFor (genesisHash : Bytes → Bytes) (app : String) : Name :=
  (toHex (genesisHash app.toUTF8.toList)).toList.take 32 ++ ['-']

inductive Op where
  | get (key : Name)
  | put (key : Name) (bytes : Bytes)
  | size (key : Name)
  | list (under : Option Name)
  | delete (key : Name)
  deriving DecidableEq

def Op.key : Op → Option Name
  | .get key | .put key _ | .size key | .delete key => some key
  | .list _ => none

inductive Answer where
  | threw (e : FsError)
  | bytes (value : Option Bytes)
  | done
  | size (n : Int)
  | keys (names : List Name)
  | removed (was : Bool)
  deriving DecidableEq

def Answer.of {α : Type} (f : α → Answer) : Except FsError α → Answer
  | .ok a => f a
  | .error e => .threw e

def Fs.call (fs : Fs σ) : Op → σ → Answer × σ
  | .get key, s => (.of .bytes (fs.get key s), s)
  | .put key bytes, s => let r := fs.put key bytes s; (.of (fun _ => .done) r.1, r.2)
  | .size key, s => (.of .size (fs.size key s), s)
  | .list under, s => (.of .keys (fs.list under s), s)
  | .delete key, s => let r := fs.delete key s; (.of .removed r.1, r.2)

/-- A call of an app, by its label. -/
structure Call where
  app : String
  op : Op
  deriving DecidableEq

variable (genesisHash : Bytes → Bytes)

def call (c : Call) (f : FilesFs) : Answer × FilesFs :=
  match scopedFs (validatedFs filesFs) (appScopeFor genesisHash c.app) with
  | .error e => (.threw e, f)
  | .ok fs => fs.call c.op f

/-- A history of calls: each with its answer, and the store after it. -/
def run (f : FilesFs) : List Call → List (Call × Answer) × FilesFs
  | [] => ([], f)
  | c :: calls =>
    let r := call genesisHash c f
    let rest := run r.2 calls
    ((c, r.1) :: rest.1, rest.2)

/-- What one app is answered. -/
def answers (app : String) (history : List (Call × Answer)) : List (Op × Answer) :=
  (history.filter (·.1.app = app)).map fun h => (h.1.op, h.2)

/-! ### What a directory holds -/

/-- A name that a file of the store may have. -/
def Plain (n : Name) : Prop := FilesFs.path n = .ok n ∧ '\n' ∉ n

def FilesFs.Plain (f : FilesFs) : Prop := ∀ n ∈ f.raw.files.keys, FileStore.Plain n

theorem Plain.ne_nil {n : Name} (h : Plain n) : n ≠ [] := by
  rintro rfl
  simp [Plain, FilesFs.path] at h

namespace RawFiles

theorem mem_order (sorted : Bool) (names : List Name) (n : Name) :
    n ∈ order sorted names ↔ n ∈ names := by
  unfold order
  split
  · exact List.mem_mergeSort
  · rfl

theorem order_nodup (sorted : Bool) {names : List Name} (h : names.Nodup) :
    (order sorted names).Nodup := by
  unfold order
  split
  · exact (List.mergeSort_perm _ _).nodup_iff.2 h
  · exact h

/-- A directory is listed in an order in which a part of it is listed too. -/
theorem filter_order (sorted : Bool) (names : List Name) (p : Name → Bool) :
    (order sorted names).filter p = order sorted (names.filter p) := by
  unfold order
  split
  · have htrans : ∀ a b c : Name, decide (a ≤ b) = true → decide (b ≤ c) = true →
        decide (a ≤ c) = true := by
      intro a b c h1 h2
      rw [decide_eq_true_eq] at h1 h2 ⊢
      exact le_trans h1 h2
    have htotal : ∀ a b : Name, (decide (a ≤ b) || decide (b ≤ a)) = true := by
      intro a b
      rw [Bool.or_eq_true, decide_eq_true_eq, decide_eq_true_eq]
      exact le_total a b
    have hperm : ((names.mergeSort fun a b => decide (a ≤ b)).filter p).Perm
        ((names.filter p).mergeSort fun a b => decide (a ≤ b)) :=
      ((List.mergeSort_perm _ _).filter p).trans (List.mergeSort_perm _ _).symm
    have hanti : ∀ a b : Name, decide (a ≤ b) = true → decide (b ≤ a) = true → a = b := by
      intro a b h1 h2
      rw [decide_eq_true_eq] at h1 h2
      exact le_antisymm h1 h2
    exact hperm.eq_of_pairwise (fun a b _ _ => hanti a b)
      ((List.pairwise_mergeSort htrans htotal names).filter p)
      (List.pairwise_mergeSort htrans htotal _)
  · rfl

end RawFiles

theorem names_eq {r : RawFiles} (h : ∀ n ∈ r.files.keys, Plain n) :
    FilesFs.names r = RawFiles.order r.sorted r.files.keys := by
  have hall : ∀ n ∈ RawFiles.order r.sorted r.files.keys, Plain n :=
    fun n hn => h n ((RawFiles.mem_order _ _ _).1 hn)
  unfold FilesFs.names RawFiles.list
  generalize RawFiles.order r.sorted r.files.keys = l at hall
  cases l with
  | nil => rfl
  | cons n l =>
    have hne : ['\n'].intercalate (n :: l) ≠ [] := by
      have := (hall n (by simp)).ne_nil
      cases l with
      | nil => simpa [List.intercalate] using this
      | cons m l => simp [List.intercalate, this]
    simp only [hne, if_false]
    exact List.splitOn_intercalate _ (fun m hm => (hall m hm).2) (by simp)

/-! ### The scan -/

/-- The scan of plain names succeeds, and takes nothing but temp files. -/
theorem scanNames_spec (ns : List Name) (hns : ∀ n ∈ ns, Plain n) : ∀ (r : RawFiles) (used : Int),
    ∃ used' r', FilesFs.scanNames ns r used = (.ok used', r') ∧
      r'.sorted = r.sorted ∧ r'.maxBytes = r.maxBytes ∧ r'.maxEntries = r.maxEntries ∧
      (∀ n ∈ r'.files.keys, n ∈ r.files.keys) ∧
      ∀ p : Name → Bool, (∀ n, p n = true → FilesFs.isTemp n = false) →
        r'.files.restrict p = r.files.restrict p := by
  induction ns with
  | nil => exact fun r used => ⟨used, r, rfl, rfl, rfl, rfl, fun _ h => h, fun _ _ => rfl⟩
  | cons n ns ih =>
    intro r used
    have ih := ih fun m hm => hns m (by simp [hm])
    have hn := (hns n (by simp)).1
    simp only [FilesFs.scanNames, hn]
    by_cases ht : FilesFs.isTemp n = true
    · obtain ⟨used', r', he, h1, h2, h3, h4, h5⟩ := ih (r.remove n).2 used
      simp only [ht, if_true]
      refine ⟨used', r', he, h1, h2, h3, fun m hm => ?_, fun p hp => ?_⟩
      · exact (OrdMap.keys_delete_sublist r.files n).subset (h4 m hm)
      · rw [h5 p hp]
        refine OrdMap.restrict_delete_out _ fun hpn => ?_
        rw [hp n hpn] at ht
        cases ht
    · simp only [ht]
      exact ih r _

/-- What a store after the scan has of the one before. -/
structure Scanned (f g : FilesFs) : Prop where
  sorted : g.raw.sorted = f.raw.sorted
  maxBytes : g.raw.maxBytes = f.raw.maxBytes
  maxEntries : g.raw.maxEntries = f.raw.maxEntries
  plain : g.Plain
  restrict : ∀ p : Name → Bool, (∀ n, p n = true → FilesFs.isTemp n = false) →
    g.raw.files.restrict p = f.raw.files.restrict p

theorem scan_spec {f : FilesFs} (h : f.Plain) : ∃ g, f.scan = (.ok (), g) ∧ Scanned f g := by
  unfold FilesFs.scan
  split
  · exact ⟨f, rfl, rfl, rfl, rfl, h, fun _ _ => rfl⟩
  · have hns : ∀ n ∈ FilesFs.names f.raw, FileStore.Plain n := by
      rw [names_eq h]
      exact fun n hn => h n ((RawFiles.mem_order _ _ _).1 hn)
    obtain ⟨used, r, he, h1, h2, h3, h4, h5⟩ := scanNames_spec _ hns f.raw 0
    rw [he]
    exact ⟨⟨r, used⟩, rfl, h1, h2, h3, fun n hn => h n (h4 n hn), h5⟩

/-! ### Safe keys -/

theorem safe_chars {key : Name} (h : isSafeFsKey key = true) :
    key ≠ [] ∧ ∀ c ∈ key, isSafeChar c = true := by
  simp only [isSafeFsKey, SAFE_CHARS, Bool.and_eq_true, Bool.not_eq_true', List.isEmpty_eq_false_iff,
    List.all_eq_true] at h
  exact h.1.2

/-- A safe key is a file's name, and not a temp file's. -/
theorem safe_plain {key : Name} (h : isSafeFsKey key = true) : Plain key := by
  obtain ⟨hne, hall⟩ := safe_chars h
  have hno : ∀ c, isSafeChar c = false → c ∉ key := by
    intro c hc hmem
    rw [hall c hmem] at hc
    cases hc
  have hdots : key ≠ ['.'] ∧ key ≠ ['.', '.'] := by
    simp only [isSafeFsKey, Bool.and_eq_true, bne_iff_ne] at h
    exact h.1.1
  refine ⟨?_, hno _ (by decide)⟩
  unfold FilesFs.path
  rw [if_neg]
  rintro (h1 | h1 | h1 | h1 | h1)
  · exact hne h1
  · exact hdots.1 h1
  · exact hdots.2 h1
  · exact hno '/' (by decide) h1
  · exact hno '\\' (by decide) h1

/-- A prefix that app keys have: of safe characters, and its own length. -/
structure Scope (s : Name) : Prop where
  length : s.length = 33
  safe : isSafeFsScope s = true

theorem Scope.head {s : Name} (h : Scope s) : ∃ c cs, s = c :: cs ∧ isSafeChar c = true := by
  cases s with
  | nil => cases h.length
  | cons c cs =>
    have := h.safe
    simp only [isSafeFsScope, SAFE_CHARS, Bool.and_eq_true, List.all_eq_true] at this
    exact ⟨c, cs, rfl, this.2 c (by simp)⟩

/-- The keys of one app. -/
def under (s : Name) (n : Name) : Bool := s.isPrefixOf n

@[simp] theorem under_append (s key : Name) : under s (s ++ key) = true := by
  simp [under]

theorem Scope.not_temp {s : Name} (h : Scope s) {n : Name} (hn : under s n = true) :
    FilesFs.isTemp n = false := by
  obtain ⟨c, cs, rfl, hc⟩ := h.head
  obtain ⟨key, rfl⟩ := List.isPrefixOf_iff_prefix.1 hn
  have hne : c ≠ '~' := by
    rintro rfl
    exact absurd hc (by decide)
  simp [FilesFs.isTemp, hne]

theorem Scope.apart {s t : Name} (hs : Scope s) (ht : Scope t) (hne : s ≠ t) (key : Name) :
    ¬ under s (t ++ key) = true := by
  intro h
  have hpre := List.isPrefixOf_iff_prefix.1 h
  obtain ⟨rest, hr⟩ := hpre
  exact hne (List.append_inj hr (by rw [hs.length, ht.length])).1

theorem appScopeFor_scope (hlen : ∀ b, (genesisHash b).length = 32) (app : String) :
    Scope (appScopeFor genesisHash app) := by
  have hhex : ∀ n, isSafeChar (hexDigit (n % 16)) = true := by
    intro n
    have hn : n % 16 < 16 := Nat.mod_lt _ (by omega)
    generalize n % 16 = m at hn
    interval_cases m <;> decide
  have hdigits : ∀ b : Bytes, ((toHex b).toList.length = 2 * b.length) ∧
      ∀ c ∈ (toHex b).toList, isSafeChar c = true := by
    intro b
    simp only [toHex, String.toList_ofList]
    induction b with
    | nil => simp
    | cons x b ih =>
      refine ⟨by simp only [List.flatMap_cons, List.length_append, ih.1, List.length_cons]; simp; omega, ?_⟩
      intro c hc
      simp only [List.flatMap_cons, List.mem_append, List.mem_cons, List.not_mem_nil, or_false] at hc
      rcases hc with (rfl | rfl) | hc
      · have hx : x.toNat / 16 = (x.toNat / 16) % 16 := by
          have := x.toNat_lt
          omega
        rw [hx]
        exact hhex _
      · exact hhex _
      · exact ih.2 c hc
  obtain ⟨hl, hc⟩ := hdigits (genesisHash app.toUTF8.toList)
  constructor
  · simp only [appScopeFor, List.length_append, List.length_take, hl, hlen]
    rfl
  · simp only [isSafeFsScope, SAFE_CHARS, appScopeFor, Bool.and_eq_true, List.all_eq_true]
    refine ⟨by simp, fun c hmem => ?_⟩
    rcases List.mem_append.1 hmem with hmem | hmem
    · exact hc c (List.mem_of_mem_take hmem)
    · rw [List.mem_singleton.1 hmem]
      decide

/-! ### An app's own store -/

/-- The files that are an app's. -/
def FilesFs.view (s : Name) (f : FilesFs) : OrdMap Name Bytes := f.raw.files.restrict (under s)

/-- A store that is one app's alone: its keys and nothing else, without a quota. -/
def own (s : Name) (sorted : Bool) (v : OrdMap Name Bytes) : Op → Answer × OrdMap Name Bytes
  | .get key =>
    (.of .bytes ((check (s ++ key)).map fun n => (v.get n).filter (·.length ≤ MAX_VALUE_BYTES)), v)
  | .put key bytes =>
    match check (s ++ key) with
    | .error e => (.threw e, v)
    | .ok n => (.done, v.set n bytes)
  | .size key =>
    (.of .size ((check (s ++ key)).map fun n => (v.get n).elim (-1) fun b => b.length), v)
  | .list prefix' =>
    (.keys (((RawFiles.order sorted v.keys).filter (under (s ++ prefix'.getD []))).map
      (·.drop s.length)), v)
  | .delete key =>
    match check (s ++ key) with
    | .error e => (.threw e, v)
    | .ok n => (.removed (v.has n), v.delete n)

/-- Whether the backend has no room for a put. -/
def refuses (s : Name) (f : FilesFs) : Op → Bool
  | .put key bytes => isSafeFsKey (s ++ key) && (f.scan.2.raw.refusal (s ++ key) bytes).isSome
  | _ => false

/-- What a call of the app with scope `s` does. -/
structure Called (s : Name) (f : FilesFs) (op : Op) (r : Answer × FilesFs) : Prop where
  plain : r.2.Plain
  sorted : r.2.raw.sorted = f.raw.sorted
  maxBytes : r.2.raw.maxBytes = f.raw.maxBytes
  maxEntries : r.2.raw.maxEntries = f.raw.maxEntries
  others : ∀ t, Scope t → t ≠ s → r.2.view t = f.view t
  alone : refuses s f op = false → r.1 = (own s f.raw.sorted (f.view s) op).1 ∧
    r.2.view s = (own s f.raw.sorted (f.view s) op).2
  refused : refuses s f op = true → (r.1 = .threw .entryQuota ∨ r.1 = .threw .byteQuota) ∧
    ∀ t, Scope t → r.2.view t = f.view t

section Calls

variable {s : Name} {f : FilesFs}

theorem check_ok {key : Name} (h : isSafeFsKey key = true) : check key = .ok key := by
  simp [check, h]

theorem check_error {key : Name} (h : ¬ isSafeFsKey key = true) :
    check key = .error (.unsafeKey key) := by
  simp [check, h]

theorem view_get (s key : Name) (f : FilesFs) :
    (f.view s).get (s ++ key) = f.raw.files.get (s ++ key) := by
  simp [FilesFs.view, OrdMap.get_restrict]

/-- A call that changes nothing. -/
theorem Called.still {op : Op} {a : Answer} (h : f.Plain) (hr : refuses s f op = false)
    (ha : a = (own s f.raw.sorted (f.view s) op).1) (hv : (own s f.raw.sorted (f.view s) op).2 = f.view s) :
    Called s f op (a, f) where
  plain := h
  sorted := rfl
  maxBytes := rfl
  maxEntries := rfl
  others := fun _ _ _ => rfl
  alone := fun _ => ⟨ha, hv.symm⟩
  refused := fun hr' => by
    rw [hr] at hr'
    cases hr'

theorem called_get (h : f.Plain) (key : Name) :
    Called s f (.get key) (.of .bytes ((validatedFs filesFs).get (s ++ key) f), f) := by
  refine Called.still h rfl ?_ rfl
  by_cases hs : isSafeFsKey (s ++ key) = true
  · have hp := (safe_plain hs).1
    simp only [validatedFs, filesFs, own, check_ok hs, bind, Except.bind, Except.map, view_get,
      FilesFs.get, hp, RawFiles.read]
    cases hg : f.raw.files.get (s ++ key) with
    | none => rfl
    | some b =>
      by_cases hb : MAX_VALUE_BYTES < b.length
      · simp [hb, Option.filter, Nat.not_le.2 hb]
      · simp [hb, Option.filter, Nat.not_lt.1 hb]
  · simp only [validatedFs, own, check_error hs]
    rfl

theorem called_size (h : f.Plain) (key : Name) :
    Called s f (.size key) (.of .size ((validatedFs filesFs).size (s ++ key) f), f) := by
  refine Called.still h rfl ?_ rfl
  by_cases hs : isSafeFsKey (s ++ key) = true
  · have hp := (safe_plain hs).1
    simp only [validatedFs, filesFs, own, check_ok hs, bind, Except.bind, Except.map, view_get,
      FilesFs.size, hp, RawFiles.size]
  · simp only [validatedFs, own, check_error hs]
    rfl

theorem under_of_under {s key n : Name} (h : under (s ++ key) n = true) : under s n = true := by
  obtain ⟨rest, rfl⟩ := List.isPrefixOf_iff_prefix.1 h
  rw [List.append_assoc]
  exact under_append _ _

theorem called_list (hs : Scope s) (h : f.Plain) (prefix' : Option Name) :
    Called s f (.list prefix')
      (.keys ((f.list (some (s ++ prefix'.getD []))).map (·.drop s.length)), f) := by
  refine Called.still h rfl ?_ rfl
  have hkeys : (RawFiles.order f.raw.sorted (f.view s).keys).filter (under (s ++ prefix'.getD [])) =
      (RawFiles.order f.raw.sorted f.raw.files.keys).filter (under (s ++ prefix'.getD [])) := by
    rw [FilesFs.view, OrdMap.keys_restrict, ← RawFiles.filter_order, List.filter_filter]
    apply List.filter_congr
    intro n _
    by_cases hn : under (s ++ prefix'.getD []) n = true
    · rw [hn, under_of_under hn]
      rfl
    · simp [hn]
  have hlist : f.list (some (s ++ prefix'.getD [])) =
      (RawFiles.order f.raw.sorted f.raw.files.keys).filter (under (s ++ prefix'.getD [])) := by
    obtain ⟨c, cs, rfl, -⟩ := hs.head
    unfold FilesFs.list
    rw [names_eq h]
    simp only [List.cons_append, List.filter_filter]
    apply List.filter_congr
    intro n _
    by_cases hn : under (c :: (cs ++ prefix'.getD [])) n = true
    · have hn' : under (c :: cs) n = true := under_of_under (s := c :: cs) hn
      have hn : (c :: (cs ++ prefix'.getD [])).isPrefixOf n = true := hn
      rw [hs.not_temp hn']
      simp [under, hn]
    · have hn : ¬ (c :: (cs ++ prefix'.getD [])).isPrefixOf n = true := hn
      simp [under, hn]
  rw [hlist, own, hkeys]

theorem Scanned.view {g : FilesFs} (sc : Scanned f g) {t : Name} (ht : Scope t) :
    g.view t = f.view t :=
  sc.restrict _ fun _ hn => ht.not_temp hn

theorem mem_keys_set {m : OrdMap Name Bytes} {n k : Name} {b : Bytes} (h : n ∈ (m.set k b).keys) :
    n = k ∨ n ∈ m.keys := by
  rw [OrdMap.mem_keys] at h
  obtain ⟨v, hv⟩ := h
  rw [OrdMap.get_set] at hv
  split at hv
  · rename_i he
    exact .inl he
  · exact .inr ((OrdMap.mem_keys m n).2 ⟨v, hv⟩)

theorem refusal_eq {r : RawFiles} {n : Name} {b : Bytes} {e : FsError}
    (h : r.refusal n b = some e) : e = .entryQuota ∨ e = .byteQuota := by
  unfold RawFiles.refusal at h
  simp only at h
  split at h
  · exact .inl (Option.some.inj h).symm
  · split at h
    · exact .inr (Option.some.inj h).symm
    · cases h

theorem called_put (hs : Scope s) (h : f.Plain) (key : Name) (bytes : Bytes) :
    Called s f (.put key bytes)
      (.of (fun _ => .done) ((validatedFs filesFs).put (s ++ key) bytes f).1,
        ((validatedFs filesFs).put (s ++ key) bytes f).2) := by
  by_cases hk : isSafeFsKey (s ++ key) = true
  · have hplain := safe_plain hk
    obtain ⟨g, hscan, sc⟩ := scan_spec h
    have hrefuses : refuses s f (.put key bytes) = (g.raw.refusal (s ++ key) bytes).isSome := by
      simp [refuses, hk, hscan]
    simp only [validatedFs, filesFs, check_ok hk, FilesFs.put, hplain.1, hscan, RawFiles.write]
    cases hr : g.raw.refusal (s ++ key) bytes with
    | some e =>
      rw [hr, Option.isSome_some] at hrefuses
      exact {
        plain := sc.plain
        sorted := sc.sorted
        maxBytes := sc.maxBytes
        maxEntries := sc.maxEntries
        others := fun t ht _ => sc.view ht
        alone := fun hno => by
          rw [hrefuses] at hno
          cases hno
        refused := fun _ => by
          refine ⟨?_, fun t ht => sc.view ht⟩
          rcases refusal_eq hr with rfl | rfl
          · exact .inl rfl
          · exact .inr rfl }
    | none =>
      rw [hr, Option.isSome_none] at hrefuses
      exact {
        plain := fun n hn => by
          rcases mem_keys_set hn with rfl | hn
          · exact hplain
          · exact sc.plain n hn
        sorted := sc.sorted
        maxBytes := sc.maxBytes
        maxEntries := sc.maxEntries
        others := fun t ht hne => by
          rw [← sc.view ht]
          exact OrdMap.restrict_set_out _ _ (ht.apart hs hne key)
        alone := fun _ => by
          simp only [own, check_ok hk]
          refine ⟨rfl, ?_⟩
          rw [← sc.view hs]
          exact OrdMap.restrict_set_in _ _ (under_append s key)
        refused := fun hyes => by
          rw [hrefuses] at hyes
          cases hyes }
  · have hr : refuses s f (.put key bytes) = false := by simp [refuses, hk]
    simp only [validatedFs, check_error hk]
    exact Called.still h hr (by simp only [own, check_error hk]; rfl) (by simp only [own, check_error hk])

theorem called_delete (hs : Scope s) (h : f.Plain) (key : Name) :
    Called s f (.delete key)
      (.of .removed ((validatedFs filesFs).delete (s ++ key) f).1,
        ((validatedFs filesFs).delete (s ++ key) f).2) := by
  by_cases hk : isSafeFsKey (s ++ key) = true
  · have hplain := safe_plain hk
    obtain ⟨g, hscan, sc⟩ := scan_spec h
    have hhas : (f.view s).has (s ++ key) = g.raw.files.has (s ++ key) := by
      rw [← sc.view hs, Bool.eq_iff_iff, OrdMap.has_iff, OrdMap.has_iff, view_get]
    have hview : ∀ t, Scope t → (g.raw.files.delete (s ++ key)).restrict (under t) =
        (f.view t).delete (s ++ key) := by
      intro t ht
      rw [OrdMap.restrict_delete, ← sc.view ht]
      rfl
    have hcalled : ∀ (was : Bool) (used : Int), g.raw.files.has (s ++ key) = was →
        Called s f (.delete key) (.removed was,
          ⟨{ g.raw with files := g.raw.files.delete (s ++ key) }, used⟩) := by
      intro was used hwas
      exact {
        plain := fun n hn => sc.plain n ((OrdMap.keys_delete_sublist _ _).subset hn)
        sorted := sc.sorted
        maxBytes := sc.maxBytes
        maxEntries := sc.maxEntries
        others := fun t ht hne => by
          have hnone : (f.view t).get (s ++ key) = none := by
            rw [FilesFs.view, OrdMap.get_restrict, if_neg (ht.apart hs hne key)]
          exact (hview t ht).trans (OrdMap.delete_of_none _ hnone)
        alone := fun _ => by
          simp only [own, check_ok hk, hhas, hwas]
          exact ⟨trivial, hview s hs⟩
        refused := fun hyes => by cases hyes }
    simp only [validatedFs, filesFs, check_ok hk, FilesFs.delete, hplain.1, hscan, RawFiles.remove]
    cases hwas : g.raw.files.has (s ++ key) with
    | true => exact hcalled true _ hwas
    | false => exact hcalled false _ hwas
  · simp only [validatedFs, check_error hk]
    exact Called.still h rfl (by simp only [own, check_error hk]; rfl) (by simp only [own, check_error hk])

theorem call_called (hlen : ∀ b, (genesisHash b).length = 32) (h : f.Plain) (c : Call) :
    Called (appScopeFor genesisHash c.app) f c.op (call genesisHash c f) := by
  have hs := appScopeFor_scope genesisHash hlen c.app
  simp only [call, scopedFs, hs.safe, if_true]
  cases c.op with
  | get key => exact called_get h key
  | put key bytes => exact called_put hs h key bytes
  | size key => exact called_size h key
  | list prefix' => exact called_list hs h prefix'
  | delete key => exact called_delete hs h key

theorem refuses_unbounded (hb : f.raw.maxBytes = none) (he : f.raw.maxEntries = none) (h : f.Plain)
    (op : Op) : refuses s f op = false := by
  cases op with
  | put key bytes =>
    obtain ⟨g, hscan, sc⟩ := scan_spec h
    simp [refuses, hscan, RawFiles.refusal, sc.maxBytes, sc.maxEntries, hb, he]
  | _ => rfl

end Calls

/-! ### Apps side by side -/

/-- The calls that are made under one scope. -/
def inScope (s : Name) (calls : List Call) : List Call :=
  calls.filter fun c => appScopeFor genesisHash c.app = s

/-- Those calls alone, on the app's own store. -/
def ownRun (s : Name) (sorted : Bool) (v : OrdMap Name Bytes) :
    List Call → List (Call × Answer) × OrdMap Name Bytes
  | [] => ([], v)
  | c :: calls =>
    let r := own s sorted v c.op
    let rest := ownRun s sorted r.2 calls
    ((c, r.1) :: rest.1, rest.2)

/-- No put under a scope is refused for want of room. -/
def roomy (s : Name) (f : FilesFs) : List Call → Bool
  | [] => true
  | c :: calls =>
    (appScopeFor genesisHash c.app != s || !refuses s f c.op) &&
      roomy s (call genesisHash c f).2 calls

/-- A backend without a quota has room. -/
theorem roomy_unbounded (hlen : ∀ b, (genesisHash b).length = 32) (s : Name) (calls : List Call) :
    ∀ f : FilesFs, f.Plain → f.raw.maxBytes = none → f.raw.maxEntries = none →
      roomy genesisHash s f calls = true := by
  induction calls with
  | nil => exact fun _ _ _ _ => rfl
  | cons c calls ih =>
    intro f h hb he
    have hc := call_called genesisHash hlen h c
    simp only [roomy, refuses_unbounded hb he h, Bool.not_false, Bool.or_true, Bool.true_and]
    exact ih _ hc.plain (hc.maxBytes.trans hb) (hc.maxEntries.trans he)

/-- What is answered under a scope, and what is stored, is what the app's own store says. -/
theorem run_own (hlen : ∀ b, (genesisHash b).length = 32) {s : Name} (hs : Scope s)
    (calls : List Call) : ∀ f : FilesFs, f.Plain → roomy genesisHash s f calls = true →
      (run genesisHash f calls).2.Plain ∧
      (run genesisHash f calls).2.raw.sorted = f.raw.sorted ∧
      (run genesisHash f calls).1.filter (fun h => appScopeFor genesisHash h.1.app = s) =
        (ownRun s f.raw.sorted (f.view s) (inScope genesisHash s calls)).1 ∧
      (run genesisHash f calls).2.view s =
        (ownRun s f.raw.sorted (f.view s) (inScope genesisHash s calls)).2 := by
  induction calls with
  | nil => exact fun f h _ => ⟨h, rfl, rfl, rfl⟩
  | cons c calls ih =>
    intro f h hroom
    have hc := call_called genesisHash hlen h c
    simp only [roomy, Bool.and_eq_true] at hroom
    obtain ⟨hplain, hsorted, hanswers, hview⟩ := ih _ hc.plain hroom.2
    refine ⟨hplain, hsorted.trans hc.sorted, ?_⟩
    rw [hc.sorted] at hanswers hview
    by_cases hcs : appScopeFor genesisHash c.app = s
    · have hfits : refuses s f c.op = false := by
        simpa [hcs] using hroom.1
      rw [hcs] at hc
      obtain ⟨ha, hv⟩ := hc.alone hfits
      rw [hv] at hanswers hview
      simp only [run, inScope, ownRun, hcs, decide_true, List.filter_cons_of_pos]
      rw [ha]
      exact ⟨congrArg _ hanswers, hview⟩
    · rw [hc.others s hs (Ne.symm hcs)] at hanswers hview
      simp only [run, inScope]
      rw [List.filter_cons_of_neg (by simpa using hcs), List.filter_cons_of_neg (by simpa using hcs)]
      exact ⟨hanswers, hview⟩

/-- The store of an app after a history: what its own calls made of what it had. -/
def ownStore (app : String) (f : FilesFs) (calls : List Call) : OrdMap Name Bytes :=
  let s := appScopeFor genesisHash app
  (ownRun s f.raw.sorted (f.view s) (inScope genesisHash s calls)).2

/-- A backend without a quota, or with room for the app's puts. -/
def Room (app : String) (f : FilesFs) (calls : List Call) : Prop :=
  (f.raw.maxBytes = none ∧ f.raw.maxEntries = none) ∨
    roomy genesisHash (appScopeFor genesisHash app) f calls = true

variable {genesisHash}

theorem Room.roomy (hlen : ∀ b, (genesisHash b).length = 32) {app : String} {f : FilesFs}
    {calls : List Call} (h : f.Plain) (hr : Room genesisHash app f calls) :
    roomy genesisHash (appScopeFor genesisHash app) f calls = true := by
  rcases hr with ⟨hb, he⟩ | hr
  · exact roomy_unbounded genesisHash hlen _ calls f h hb he
  · exact hr

theorem answers_eq (genesisHash : Bytes → Bytes) {app : String} (history : List (Call × Answer)) :
    answers app history = answers app
      (history.filter fun h => appScopeFor genesisHash h.1.app = appScopeFor genesisHash app) := by
  unfold answers
  rw [List.filter_filter]
  congr 1
  apply List.filter_congr
  intro h _
  by_cases ha : h.1.app = app
  · simp [ha]
  · simp [ha]

/-- Without the calls of an app of another scope the same calls are left under this one. -/
theorem inScope_without {a b : String} (hab : appScopeFor genesisHash a ≠ appScopeFor genesisHash b)
    (calls : List Call) :
    inScope genesisHash (appScopeFor genesisHash a) (calls.filter (·.app ≠ b)) =
      inScope genesisHash (appScopeFor genesisHash a) calls := by
  unfold inScope
  rw [List.filter_filter]
  apply List.filter_congr
  intro c _
  by_cases hc : c.app = b
  · simp [hc, hab.symm]
  · simp [hc]

theorem list_exact {f : FilesFs} {s : Name} (sorted : Bool) (prefix' : Option Name) :
    ∃ l, (own s sorted (f.view s) (.list prefix')).1 = .keys l ∧ l.Nodup ∧
      ∀ key, key ∈ l ↔ prefix'.getD [] <+: key ∧ ((f.view s).get (s ++ key)).isSome = true := by
  refine ⟨_, rfl, ?_, fun key => ?_⟩
  · refine List.Nodup.map_on ?_ ((RawFiles.order_nodup _ (f.view s).nodup).filter _)
    intro n hn m hm hnm
    obtain ⟨k, rfl⟩ := List.isPrefixOf_iff_prefix.1 (under_of_under (List.mem_filter.1 hn).2)
    obtain ⟨k', rfl⟩ := List.isPrefixOf_iff_prefix.1 (under_of_under (List.mem_filter.1 hm).2)
    rw [List.drop_left, List.drop_left] at hnm
    rw [hnm]
  · rw [List.mem_map]
    constructor
    · rintro ⟨n, hn, rfl⟩
      obtain ⟨hmem, hunder⟩ := List.mem_filter.1 hn
      obtain ⟨rest, rfl⟩ := List.isPrefixOf_iff_prefix.1 hunder
      rw [List.append_assoc, List.drop_left]
      refine ⟨List.prefix_append _ _, ?_⟩
      rw [RawFiles.mem_order, OrdMap.mem_keys] at hmem
      obtain ⟨v, hv⟩ := hmem
      rw [List.append_assoc] at hv
      rw [hv]
      rfl
    · rintro ⟨⟨rest, rfl⟩, hsome⟩
      obtain ⟨v, hv⟩ := Option.isSome_iff_exists.1 hsome
      refine ⟨s ++ (prefix'.getD [] ++ rest), List.mem_filter.2 ⟨?_, ?_⟩, List.drop_left⟩
      · exact (RawFiles.mem_order _ _ _).2 ((OrdMap.mem_keys _ _).2 ⟨v, hv⟩)
      · rw [← List.append_assoc]
        exact under_append _ _

theorem call_unsafe (hlen : ∀ b, (genesisHash b).length = 32) (c : Call) (f : FilesFs) {key : Name}
    (hkey : c.op.key = some key) (hrefused : ¬ isSafeFsKey (appScopeFor genesisHash c.app ++ key) = true) :
    call genesisHash c f =
      (.threw (.unsafeKey (appScopeFor genesisHash c.app ++ key)), f) := by
  have hs := appScopeFor_scope genesisHash hlen c.app
  simp only [call, scopedFs, hs.safe, if_true]
  cases hop : c.op with
  | list prefix' =>
    rw [hop] at hkey
    cases hkey
  | _ =>
    rw [hop] at hkey
    obtain rfl := Option.some.inj hkey
    simp only [Fs.call, validatedFs, check_error hrefused]
    rfl

/-- Apps whose scopes differ, over one backend. -/
theorem run_isolated (hlen : ∀ b, (genesisHash b).length = 32) {a b : String}
    (hab : appScopeFor genesisHash a ≠ appScopeFor genesisHash b) {f : FilesFs} (h : f.Plain)
    (calls : List Call) (hroom : Room genesisHash a f calls)
    (hroom' : Room genesisHash a f (calls.filter (·.app ≠ b))) :
    answers a (run genesisHash f calls).1 =
      answers a (run genesisHash f (calls.filter (·.app ≠ b))).1 ∧
    (∀ prefix', ∃ l, (call genesisHash ⟨a, .list prefix'⟩ (run genesisHash f calls).2).1 = .keys l ∧
      l.Nodup ∧ ∀ key, key ∈ l ↔ prefix'.getD [] <+: key ∧
        ((ownStore genesisHash a f calls).get (appScopeFor genesisHash a ++ key)).isSome = true) ∧
    (∀ op key, op.key = some key → ¬ isSafeFsKey (appScopeFor genesisHash a ++ key) = true →
      call genesisHash ⟨a, op⟩ (run genesisHash f calls).2 =
        (.threw (.unsafeKey (appScopeFor genesisHash a ++ key)), (run genesisHash f calls).2)) ∧
    ∀ op, refuses (appScopeFor genesisHash a) (run genesisHash f calls).2 op = true →
      ∀ t, Scope t → (call genesisHash ⟨a, op⟩ (run genesisHash f calls).2).2.view t =
        (run genesisHash f calls).2.view t := by
  have hs := appScopeFor_scope genesisHash hlen a
  obtain ⟨hplain, -, hanswers, hview⟩ := run_own genesisHash hlen hs calls f h (hroom.roomy hlen h)
  obtain ⟨-, -, hanswers', -⟩ :=
    run_own genesisHash hlen hs (calls.filter (·.app ≠ b)) f h (hroom'.roomy hlen h)
  refine ⟨?_, fun prefix' => ?_, fun op key hk hu => call_unsafe hlen ⟨a, op⟩ _ hk hu,
    fun op hop t ht => ?_⟩
  · rw [answers_eq genesisHash, hanswers, answers_eq genesisHash (run genesisHash f _).1, hanswers',
      inScope_without hab]
  · have hc := call_called genesisHash hlen hplain ⟨a, .list prefix'⟩
    obtain ⟨l, hl, hnodup, hmem⟩ := list_exact (f := (run genesisHash f calls).2)
      (s := appScopeFor genesisHash a) (run genesisHash f calls).2.raw.sorted prefix'
    refine ⟨l, (hc.alone rfl).1.trans hl, hnodup, fun key => ?_⟩
    rw [hmem key, hview]
    rfl
  · exact ((call_called genesisHash hlen hplain ⟨a, op⟩).refused hop).2 t ht

/-- BLAKE2b-256 of the labels `a` and `b`. -/
def hashAB (label : Bytes) : Bytes :=
  if label = "a".toUTF8.toList then
    [137, 40, 170, 230, 60, 132, 216, 126, 160, 152, 86, 77, 30, 3, 173, 129,
    63, 16, 122, 221, 71, 78, 86, 174, 221, 40, 99, 73, 192, 192, 62, 164]
  else if label = "b".toUTF8.toList then
    [110, 92, 31, 69, 203, 175, 25, 249, 66, 48, 186, 53, 1, 195, 120, 165,
    51, 90, 247, 26, 51, 27, 91, 90, 237, 98, 121, 35, 50, 40, 141, 195]
  else List.replicate 32 0

theorem hashAB_length (label : Bytes) : (hashAB label).length = 32 := by
  unfold hashAB
  split
  · rfl
  · split <;> rfl

/-- A map with a quota of `maxEntries` files. -/
def memoryFs (maxEntries : Nat) : FilesFs :=
  ⟨⟨OrdMap.empty, false, some (64 * 2 ^ 20), some maxEntries⟩, -1⟩

theorem memoryFs_plain (maxEntries : Nat) : (memoryFs maxEntries).Plain := fun _ hn => by cases hn

/-- Two apps put under one key, which one of them reads back. -/
def twoPuts : List Call :=
  [⟨"b", .put ['k'] [2]⟩, ⟨"a", .put ['k'] [1]⟩, ⟨"a", .get ['k']⟩]

theorem twoPuts_isolated :
    appScopeFor hashAB "a" ≠ appScopeFor hashAB "b" ∧
      answers "a" (run hashAB (memoryFs 2) twoPuts).1 =
        answers "a" (run hashAB (memoryFs 2) (twoPuts.filter (·.app ≠ "b"))).1 := by
  have hab : appScopeFor hashAB "a" ≠ appScopeFor hashAB "b" := by decide +kernel
  exact ⟨hab, (run_isolated hashAB_length hab (memoryFs_plain 2) twoPuts
    (.inr (by decide +kernel)) (.inr (by decide +kernel))).1⟩

/-- With room for one file alone, the first app's put is refused for the other's. -/
theorem twoPuts_refused :
    ¬ ∀ (genesisHash : Bytes → Bytes) (_ : ∀ b, (genesisHash b).length = 32) (a b : String)
      (_ : appScopeFor genesisHash a ≠ appScopeFor genesisHash b) (f : FilesFs) (_ : f.Plain)
      (calls : List Call), answers a (run genesisHash f calls).1 =
        answers a (run genesisHash f (calls.filter (·.app ≠ b))).1 := by
  intro hall
  have := hall hashAB hashAB_length "a" "b" (by decide +kernel) (memoryFs 1)
    (memoryFs_plain 1) twoPuts
  exact absurd this (by decide +kernel)

end FileStore

end SeedTransport
