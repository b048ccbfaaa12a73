import SeedTransport.Lib.OrdMap
import SeedTransport.Host.OpFrame
import SeedTransport.Host.Utf8

set_option autoImplicit false

namespace SeedTransport

open Utf (JsString)

/-! The writing side of the op envelope (`op-frame.ts`), and what the guest's reader makes of
it. -/

/-- `[opLen u8][op ascii][args ...]` -/
def writeOp (op : String) (args : Bytes) : Except String Bytes :=
  let units := op.toList.flatMap Utf.utf16
  if units.length < 1 ∨ 255 < units.length then
    .error ("op-frame: op name " ++ jsonString op ++ " must be 1..255 bytes")
  else if units.any fun c => decide (0x7f < c.toNat) then
    .error ("op-frame: op name " ++ jsonString op ++ " must be ASCII")
  else .ok (UInt8.ofNat units.length :: (units.map fun c => UInt8.ofNat c.toNat) ++ args)

/-! ### The writer -/

/-- `OP_HEADERS`, the headers written so far. -/
abbrev Headers := OrdMap String Bytes

/-- A cached `[opLen u8][op]`, and the cache after. -/
def opHeader (headers : Headers) (op : String) : Except String (Bytes × Headers) :=
  match headers.get op with
  | some h => .ok (h, headers)
  | none =>
    match writeOp op [] with
    | .error e => .error e
    | .ok h => .ok (h, headers.set op h)

/-- Every one-byte field. -/
def BYTES : List Bytes := (List.range 256).map fun v => [UInt8.ofNat v]

/-- One op's payload: its parts, and their bytes. -/
structure OpArgs where
  parts : List Bytes
  len : Nat
  len_eq : len = (parts.map List.length).sum

namespace OpArgs

def bytes (a : OpArgs) (b : Bytes) : OpArgs where
  parts := a.parts ++ [b]
  len := a.len + b.length
  len_eq := by simp [a.len_eq]

def bare : OpArgs := ⟨[], 0, rfl⟩

/-- The constructor, and the cache after. -/
def new (headers : Headers) (op : String) : Except String (OpArgs × Headers) :=
  if op = "" then .ok (bare, headers)
  else (opHeader headers op).map fun h => (bare.bytes h.1, h.2)

def u8 (a : OpArgs) (v : Nat) : OpArgs := a.bytes (BYTES.getD (v &&& 255) [])

def u32 (a : OpArgs) (v : Nat) : OpArgs := a.bytes (writeU32BE v)

def blob (a : OpArgs) (b : Bytes) : OpArgs := (a.u32 b.length).bytes b

def text (a : OpArgs) (s : JsString) : OpArgs := a.blob (Utf.utf8Encode s)

/-- `out.set(p, off)`, and the offset past it. -/
def put (o : Bytes × Nat) (p : Bytes) : Bytes × Nat :=
  (o.1.take o.2 ++ p ++ o.1.drop (o.2 + p.length), o.2 + p.length)

/-- The whole as one buffer, with the caller's id in front when there is one. -/
def build (a : OpArgs) (caller : Option Bytes) : Bytes :=
  let head := match caller with
    | some id => id.length
    | none => 0
  let out := List.replicate (head + a.len) 0
  let out := match caller with
    | some id => (put (out, 0) id).1
    | none => out
  (a.parts.foldl put (out, head)).1

/-- Parts put one after another fill the buffer that was left for them. -/
theorem puts_fill (parts : List Bytes) (done : Bytes) (k : Nat) (hk : k = (parts.map List.length).sum) :
    (parts.foldl put (done ++ List.replicate k 0, done.length)).1 = done ++ parts.flatten := by
  induction parts generalizing done k with
  | nil =>
    subst hk
    simp
  | cons p parts ih =>
    rw [List.map_cons, List.sum_cons] at hk
    have hput : put (done ++ List.replicate k 0, done.length) p =
        ((done ++ p) ++ List.replicate (k - p.length) 0, (done ++ p).length) := by
      unfold put
      rw [List.take_left', List.drop_append, List.drop_of_length_le (Nat.le_add_right _ _), List.drop_replicate,
        List.length_append, Nat.add_sub_cancel_left, List.nil_append]
      rfl
    rw [List.foldl_cons, hput, ih (done ++ p) (k - p.length) (by omega), List.flatten_cons, List.append_assoc]

theorem build_caller (a : OpArgs) (id : Bytes) : a.build (some id) = id ++ a.parts.flatten := by
  unfold build
  simp only
  have hput : (put (List.replicate (id.length + a.len) 0, 0) id).1 = id ++ List.replicate a.len 0 := by
    simp [put]
  rw [hput]
  exact puts_fill a.parts id a.len a.len_eq

end OpArgs

/-! ### Fields -/

/-- A field of an op, in the order the op defines. -/
inductive Field where
  | u8 (v : UInt8)
  | u32 (v : UInt32)
  | blob (b : Bytes)
  | text (s : JsString)

namespace Field

def write (a : OpArgs) : Field → OpArgs
  | u8 v => a.u8 v.toNat
  | u32 v => a.u32 v.toNat
  | blob b => a.blob b
  | text s => a.text s

/-- A length that its `u32` holds. -/
def Fits : Field → Prop
  | u8 _ => True
  | u32 _ => True
  | blob b => b.length < 2 ^ 32
  | text s => (Utf.utf8Encode s).length < 2 ^ 32

def bytes : Field → Bytes
  | u8 v => [v]
  | u32 v => writeU32BE v.toNat
  | blob b => writeU32BE b.length ++ b
  | text s => writeU32BE (Utf.utf8Encode s).length ++ Utf.utf8Encode s

/-- Which of the reader's methods reads it. -/
inductive Kind where
  | u8 | u32 | blob | text

def kind : Field → Kind
  | u8 _ => .u8
  | u32 _ => .u32
  | blob _ => .blob
  | text _ => .text

/-- What the reader answers; a byte past the end is `undefined`. -/
inductive Value where
  | u8 (v : Option UInt8)
  | u32 (v : Nat)
  | blob (b : Bytes)
  | text (s : JsString)

def value : Field → Value
  | u8 v => .u8 (some v)
  | u32 v => .u32 v.toNat
  | blob b => .blob b
  | text s => .text (Utf.toWellFormed s)

end Field

namespace Reader

/-- Whether an optional trailing field follows. -/
def more (r : Reader) : Bool := decide (r.off < r.b.length)

/-- A text is a blob that the guest decodes. -/
def field (r : Reader) : Field.Kind → Field.Value × Reader
  | .u8 => (.u8 r.u8.1, r.u8.2)
  | .u32 => (.u32 r.u32.1, r.u32.2)
  | .blob => (.blob r.blob.1, r.blob.2)
  | .text => (.text (Utf8.utf8Decode r.blob.1), r.blob.2)

/-- Fields in order, each with what `more` says ahead of it. -/
def fields (r : Reader) : List Field.Kind → List (Bool × Field.Value) × Reader
  | [] => ([], r)
  | k :: ks => ((r.more, (r.field k).1) :: ((r.field k).2.fields ks).1, ((r.field k).2.fields ks).2)

end Reader

theorem Field.write_flatten (a : OpArgs) (f : Field) : (f.write a).parts.flatten = a.parts.flatten ++ f.bytes := by
  cases f with
  | u8 v =>
    have hv := v.toNat_lt
    have hbyte : BYTES.getD (v.toNat &&& 255) [] = [v] := by
      have hand : v.toNat &&& 255 = v.toNat := (Nat.and_two_pow_sub_one_eq_mod v.toNat 8).trans (Nat.mod_eq_of_lt hv)
      rw [hand, BYTES, List.getD_eq_getElem?_getD, List.getElem?_map, List.getElem?_range hv]
      simp
    simp only [Field.write, OpArgs.u8, OpArgs.bytes, hbyte, Field.bytes, List.flatten_append, List.flatten_singleton]
  | u32 v => simp [Field.write, OpArgs.u32, OpArgs.bytes, Field.bytes]
  | blob b => simp [Field.write, OpArgs.blob, OpArgs.u32, OpArgs.bytes, Field.bytes]
  | text s => simp [Field.write, OpArgs.text, OpArgs.blob, OpArgs.u32, OpArgs.bytes, Field.bytes]

theorem Field.writes_flatten (fs : List Field) (a : OpArgs) :
    (fs.foldl Field.write a).parts.flatten = a.parts.flatten ++ fs.flatMap Field.bytes := by
  induction fs generalizing a with
  | nil => simp
  | cons f fs ih => rw [List.foldl_cons, ih, Field.write_flatten, List.flatMap_cons, List.append_assoc]

/-- A blob is read back where it stands. -/
theorem Reader.blob_write (done b rest : Bytes) (hb : b.length < 2 ^ 32) :
    (Reader.mk (done ++ (writeU32BE b.length ++ b) ++ rest) done.length).blob =
      (b, ⟨done ++ (writeU32BE b.length ++ b) ++ rest, done.length + (writeU32BE b.length ++ b).length⟩) := by
  have hn : readU32BE (done ++ (writeU32BE b.length ++ b) ++ rest) done.length = b.length := by
    have h := readU32BE_append done (writeU32BE b.length ++ (b ++ rest)) 0
    rw [Nat.add_zero, readU32BE_write, Nat.mod_eq_of_lt hb] at h
    rw [List.append_assoc, List.append_assoc]
    exact h
  unfold Reader.blob Reader.u32
  simp only [hn]
  have hsub : subarray (done ++ (writeU32BE b.length ++ b) ++ rest) (done.length + 4) (done.length + 4 + b.length) = b := by
    have hlen : done.length + 4 = (done ++ writeU32BE b.length).length := by simp
    rw [subarray, Nat.add_sub_cancel_left, ← List.append_assoc done, List.append_assoc (done ++ _), hlen,
      List.drop_left, List.take_left]
  rw [hsub, List.length_append, writeU32BE_length, Nat.add_assoc]

theorem Reader.field_write {f : Field} (hf : f.Fits) (done rest : Bytes) :
    (Reader.mk (done ++ f.bytes ++ rest) done.length).field f.kind =
      (f.value, ⟨done ++ f.bytes ++ rest, done.length + f.bytes.length⟩) := by
  cases f with
  | u8 v => simp [Reader.field, Field.kind, Field.value, Field.bytes, Reader.u8]
  | u32 v =>
    have h := readU32BE_append done (writeU32BE v.toNat ++ rest) 0
    rw [Nat.add_zero, readU32BE_write, Nat.mod_eq_of_lt v.toNat_lt, ← List.append_assoc] at h
    simp only [Reader.field, Field.kind, Field.value, Field.bytes, Reader.u32, h, writeU32BE_length]
  | blob b =>
    simp only [Reader.field, Field.kind, Field.value, Field.bytes, Reader.blob_write done b rest hf]
  | text s =>
    simp only [Reader.field, Field.kind, Field.value, Field.bytes, Reader.blob_write done _ rest hf, Utf8.utf8Decode_eq,
      Utf.utf8Decode_toWellFormed]

theorem Field.bytes_pos (f : Field) : 0 < f.bytes.length := by
  cases f <;> simp [Field.bytes]

theorem Reader.fields_write {fs : List Field} (hf : ∀ f ∈ fs, f.Fits) (done : Bytes) :
    (Reader.mk (done ++ fs.flatMap Field.bytes) done.length).fields (fs.map Field.kind) =
      (fs.map fun f => (true, f.value),
        ⟨done ++ fs.flatMap Field.bytes, (done ++ fs.flatMap Field.bytes).length⟩) := by
  induction fs generalizing done with
  | nil => simp [Reader.fields]
  | cons f fs ih =>
    obtain ⟨hf, hfs⟩ := List.forall_mem_cons.mp hf
    have hpos := f.bytes_pos
    have hmore : (Reader.mk (done ++ (f.bytes ++ fs.flatMap Field.bytes)) done.length).more = true := by
      show decide (done.length < _) = true
      rw [List.length_append, List.length_append, decide_eq_true_eq]
      omega
    have hrest := ih hfs (done ++ f.bytes)
    have hone := Reader.field_write hf done (fs.flatMap Field.bytes)
    rw [List.append_assoc] at hone hrest
    rw [List.length_append] at hrest
    rw [List.flatMap_cons, List.map_cons, List.map_cons, Reader.fields, hone, hmore, hrest]

/-! ### The envelope -/

/-- 1 to 255 ASCII characters. -/
structure OpName (op : String) : Prop where
  pos : 1 ≤ op.toList.length
  short : op.toList.length ≤ 255
  ascii : ∀ c ∈ op.toList, c.toNat ≤ 0x7f

def opBytes (op : String) : Bytes := op.toList.map fun c => UInt8.ofNat c.toNat

theorem units_ascii {cs : List Char} (h : ∀ c ∈ cs, c.toNat ≤ 0x7f) :
    cs.flatMap Utf.utf16 = cs.map fun c => UInt16.ofNat c.toNat := by
  induction cs with
  | nil => rfl
  | cons c cs ih =>
    have hc := h c List.mem_cons_self
    rw [List.flatMap_cons, ih (fun d hd => h d (List.mem_cons_of_mem _ hd)), Utf.utf16, if_pos (by omega)]
    rfl

theorem writeOp_name {op : String} (h : OpName op) (args : Bytes) :
    writeOp op args = .ok (UInt8.ofNat (opBytes op).length :: opBytes op ++ args) := by
  have hsmall (c : Char) (hc : c ∈ op.toList) : (UInt16.ofNat c.toNat).toNat = c.toNat := by
    have := h.ascii c hc
    rw [UInt16.toNat_ofNat']
    omega
  have hpos := h.pos
  have hshort := h.short
  unfold writeOp
  rw [units_ascii h.ascii]
  simp only [List.length_map, List.any_map, List.map_map]
  rw [if_neg (by omega), if_neg, opBytes, List.length_map]
  · congr 3
    exact List.map_congr_left fun c hc => congrArg UInt8.ofNat (hsmall c hc)
  · simp only [List.any_eq_true, Function.comp, decide_eq_true_eq, not_exists, not_and]
    intro c hc
    rw [hsmall c hc]
    exact Nat.not_lt.mpr (h.ascii c hc)

theorem text_opBytes {op : String} (h : ∀ c ∈ op.toList, c.toNat ≤ 0x7f) : text (opBytes op) = op := by
  have hmap : (opBytes op).map (fun c => Char.ofNat c.toNat) = op.toList := by
    rw [opBytes, List.map_map]
    conv_rhs => rw [← List.map_id op.toList]
    refine List.map_congr_left fun c hc => ?_
    have := h c hc
    have hbyte : (UInt8.ofNat c.toNat).toNat = c.toNat := by
      rw [UInt8.toNat_ofNat']
      omega
    show Char.ofNat (UInt8.ofNat c.toNat).toNat = c
    rw [hbyte]
    exact Char.ofNat_toNat c
  rw [text, hmap]
  exact String.ofList_toList

theorem readOp_name {op : String} (h : OpName op) (args : Bytes) :
    readOp (UInt8.ofNat (opBytes op).length :: opBytes op ++ args) = .ok (op, args) := by
  have hlen : (opBytes op).length = op.toList.length := List.length_map _
  have hshort := h.short
  have hn : (UInt8.ofNat (opBytes op).length).toNat = (opBytes op).length := by
    rw [UInt8.toNat_ofNat']
    omega
  rw [List.cons_append, readOp, hn, if_neg (by simp), List.take_left, List.drop_left, text_opBytes h.ascii]

theorem opBytes_text (b : Bytes) : opBytes (text b) = b := by
  rw [opBytes, text, String.toList_ofList, List.map_map]
  conv_rhs => rw [← List.map_id b]
  refine List.map_congr_left fun c _ => ?_
  show UInt8.ofNat (Char.ofNat c.toNat).toNat = c
  rw [char_toNat]
  exact UInt8.ofNat_toNat

/-- An envelope with a name of ASCII characters is what `writeOp` writes. -/
theorem writeOp_readOp {body args : Bytes} {op : String} (h : readOp body = .ok (op, args)) (hne : op ≠ "")
    (hascii : ∀ c ∈ op.toList, c.toNat ≤ 0x7f) : writeOp op args = .ok body := by
  cases body with
  | nil => cases h
  | cons n rest =>
    rw [readOp] at h
    split_ifs at h with hlen
    cases h
    have hn := n.toNat_lt
    have hbytes := opBytes_text (rest.take n.toNat)
    have hlength : (opBytes (text (rest.take n.toNat))).length = n.toNat := by
      rw [hbytes, List.length_take]
      omega
    have hname : OpName (text (rest.take n.toNat)) := by
      have hchars : (text (rest.take n.toNat)).toList.length = n.toNat := (List.length_map _).symm.trans hlength
      refine ⟨?_, by omega, hascii⟩
      rw [hchars]
      by_contra hzero
      refine hne ?_
      rw [show n.toNat = 0 by omega, List.take_zero]
      rfl
    rw [writeOp_name hname, hlength, hbytes, List.cons_append, List.take_append_drop, UInt8.ofNat_toNat]

/-! ### The cache -/

/-- Every header kept is the one its name is written as. -/
def Cached (headers : Headers) : Prop := ∀ op h, headers.get op = some h → writeOp op [] = .ok h

theorem opHeader_spec {headers : Headers} (hc : Cached headers) (op : String) :
    (∀ h headers', opHeader headers op = .ok (h, headers') → writeOp op [] = .ok h ∧ Cached headers') ∧
    ∀ h, writeOp op [] = .ok h → ∃ headers', opHeader headers op = .ok (h, headers') := by
  unfold opHeader
  cases hget : headers.get op with
  | some h =>
    have hw := hc op h hget
    refine ⟨fun h' headers' heq => ?_, fun h' hw' => ⟨headers, ?_⟩⟩
    · cases heq
      exact ⟨hw, hc⟩
    · cases hw.symm.trans hw'
      rfl
  | none =>
    cases hw : writeOp op [] with
    | error e => exact ⟨nofun, nofun⟩
    | ok h =>
      refine ⟨fun h' headers' heq => ?_, fun h' hw' => ⟨headers.set op h, ?_⟩⟩
      · cases heq
        refine ⟨rfl, fun op' h' hget' => ?_⟩
        rw [OrdMap.get_set] at hget'
        split_ifs at hget' with heq
        · cases hget'
          exact heq ▸ hw
        · exact hc op' h' hget'
      · cases hw'
        rfl

/-- The cache after one more name is asked for; a name refused leaves it as it was. -/
def askHeader (headers : Headers) (op : String) : Headers :=
  match opHeader headers op with
  | .ok (_, headers') => headers'
  | .error _ => headers

def headersAfter (ops : List String) : Headers := ops.foldl askHeader .empty

theorem Cached.ask {headers : Headers} (hc : Cached headers) (op : String) : Cached (askHeader headers op) := by
  unfold askHeader
  split
  · exact ((opHeader_spec hc op).1 _ _ ‹_›).2
  · exact hc

theorem headersAfter_cached (ops : List String) : Cached (headersAfter ops) := by
  suffices ∀ headers, Cached headers → Cached (ops.foldl askHeader headers) from
    this .empty fun op h hget => nomatch hget
  induction ops with
  | nil => exact fun headers h => h
  | cons op ops ih => exact fun headers hc => ih _ (hc.ask op)

theorem OpArgs.new_name {op : String} (h : OpName op) (ops : List String) :
    ∃ a headers, OpArgs.new (headersAfter ops) op = .ok (a, headers) ∧
      a.parts.flatten = UInt8.ofNat (opBytes op).length :: opBytes op := by
  have hne : op ≠ "" := by
    rintro rfl
    exact absurd h.pos (by decide)
  obtain ⟨headers, heq⟩ := (opHeader_spec (headersAfter_cached ops) op).2 _ (writeOp_name h [])
  refine ⟨OpArgs.bare.bytes (UInt8.ofNat (opBytes op).length :: opBytes op ++ []), headers, ?_, ?_⟩
  · rw [OpArgs.new, if_neg hne, heq]
    rfl
  · simp [OpArgs.bytes, bare]

/-- What the host builds, with whatever headers it has cached, the guest reads back: the caller, whether
it is the host, the op, and each field, with `more` true ahead of each and false behind the last. An
envelope written is read back, and one read whose op is a name is written so. -/
theorem event_round_trip :
    (∀ (ops : List String) (op : String) (caller : Bytes) (fs : List Field), OpName op → caller.length = 32 →
      (∀ f ∈ fs, f.Fits) → ∃ a headers args r, OpArgs.new (headersAfter ops) op = .ok (a, headers) ∧
        (callerOf ((fs.foldl Field.write a).build (some caller))).caller = caller ∧
        ((callerOf ((fs.foldl Field.write a).build (some caller))).fromHost = true ↔ ∀ b ∈ caller, b = 0) ∧
        readOp (callerOf ((fs.foldl Field.write a).build (some caller))).body = .ok (op, args) ∧
        (Reader.mk args 0).fields (fs.map Field.kind) = (fs.map fun f => (true, f.value), r) ∧ r.more = false) ∧
    (∀ (op : String) (args : Bytes), OpName op → (writeOp op args).bind readOp = .ok (op, args)) ∧
    ∀ (body args : Bytes) (op : String), readOp body = .ok (op, args) → op ≠ "" →
      (∀ c ∈ op.toList, c.toNat ≤ 0x7f) → writeOp op args = .ok body := by
  refine ⟨fun ops op caller fs hop hcaller hfits => ?_, fun op args hop => ?_,
    fun body args op h hne hascii => writeOp_readOp h hne hascii⟩
  · obtain ⟨a, headers, hnew, hparts⟩ := OpArgs.new_name hop ops
    have hbuild : (fs.foldl Field.write a).build (some caller) =
        caller ++ (UInt8.ofNat (opBytes op).length :: opBytes op ++ fs.flatMap Field.bytes) := by
      rw [OpArgs.build_caller, Field.writes_flatten, hparts]
    have htake : (caller ++ (UInt8.ofNat (opBytes op).length :: opBytes op ++ fs.flatMap Field.bytes)).take 32 =
        caller := List.take_left' hcaller
    refine ⟨a, headers, fs.flatMap Field.bytes, _, hnew, ?_, ?_, ?_, Reader.fields_write hfits [], ?_⟩
    · rw [hbuild]
      exact htake
    · rw [hbuild]
      show decide (List.take 32 _ = _) = true ↔ _
      rw [htake, decide_eq_true_eq, ← hcaller, List.eq_replicate_iff]
      exact ⟨fun h => h.2, fun h => ⟨rfl, h⟩⟩
    · rw [hbuild]
      show readOp (List.drop 32 _) = _
      rw [List.drop_left' hcaller, readOp_name hop]
    · simp [Reader.more]
  · rw [writeOp_name hop]
    exact readOp_name hop args

end SeedTransport
