import SeedTransport.Lib.OrdMap
import SeedTransport.Lib.JsonText
import SeedTransport.Util

set_option autoImplicit false

namespace SeedTransport

namespace Bundle

open Utf

/-! The freshness store as its text keeps it (`host/bundle.ts`): marks under
`"<author hex>:<app>"`, and the revoked authors. -/

/-- An author's id. -/
structure Author where
  bytes : Bytes
  length : bytes.length = 32

/-- A label a manifest may carry is not empty. -/
structure Label where
  text : JsString
  nonempty : text ≠ []

def hexPair (b : UInt8) : JsString := [Json.hexUnit (b.toNat / 16), Json.hexUnit (b.toNat % 16)]

def hexOf (b : Bytes) : JsString := b.flatMap hexPair

def isHexUnit (u : UInt16) : Bool := (Json.hexValue u).isSome

/-- `isHex64` -/
def isHex64 (s : JsString) : Bool := decide (s.length = 64) && s.all isHexUnit

/-- `toLowerCase` of hex digits. -/
def lowerUnit (u : UInt16) : UInt16 := if 65 ≤ u.toNat ∧ u.toNat ≤ 90 then u + 32 else u

def toLowerCase (s : JsString) : JsString := s.map lowerUnit

/-- `:` -/
def colon : UInt16 := 58

structure FreshnessMarks where
  marks : OrdMap JsString Nat
  revoked : List JsString

/-- Why a text is refused as corrupt. -/
inductive Corrupt where
  | malformed
  | root
  | missing
  | marks
  | markKey
  | markVersion
  | revoked
  | revokedEntry
  deriving DecidableEq

namespace FreshnessMarks

def empty : FreshnessMarks := ⟨.empty, []⟩

/-- The loop over `Object.entries(marks)`. -/
def readMarks (marks : OrdMap JsString Nat) :
    List (JsString × Json) → Except Corrupt (OrdMap JsString Nat)
  | [] => .ok marks
  | (k, v) :: rest =>
    if isHex64 (k.take 64) = false ∨ k[64]? ≠ some colon ∨ k.length = 65 then .error .markKey
    else
      match v.safeNat? with
      | none => .error .markVersion
      | some n => readMarks (marks.set (toLowerCase (k.take 64) ++ k.drop 64) n) rest

def addTo (set : List JsString) (a : JsString) : List JsString :=
  if set.contains a then set else set ++ [a]

/-- The loop over `revoked`. -/
def readRevoked (revoked : List JsString) : List Json → Except Corrupt (List JsString)
  | [] => .ok revoked
  | a :: rest =>
    match a.str? with
    | none => .error .revokedEntry
    | some a =>
      if isHex64 a = false then .error .revokedEntry
      else readRevoked (addTo revoked (toLowerCase a)) rest

/-- An object's own fields, as its text gives them: the last of a name, at the place of the
first. -/
def objectEntries (fields : List (JsString × Json)) : List (JsString × Json) :=
  fields.foldl (fun es f => OrdMap.put f.1 f.2 es) []

/-- The constructor; no text is a first boot. -/
def ofText : Option JsString → Except Corrupt FreshnessMarks
  | none => .ok empty
  | some json =>
    match Json.parse json with
    | none => .error .malformed
    | some parsed =>
      if parsed.isRecord = false then .error .root
      else
        match parsed.field (js "marks"), parsed.field (js "revoked") with
        | some marks, some revoked =>
          match marks with
          | .obj fields =>
            match readMarks .empty (objectEntries fields) with
            | .error e => .error e
            | .ok marks =>
              match revoked with
              | .arr items => (readRevoked [] items).map fun revoked => ⟨marks, revoked⟩
              | _ => .error .revoked
          | _ => .error .marks
        | _, _ => .error .missing

/-- What `serialize` hands to `JSON.stringify`. -/
def toJson (f : FreshnessMarks) : Json :=
  .obj [(js "marks", .obj (f.marks.entries.map fun e => (e.1, .num e.2))),
    (js "revoked", .arr (f.revoked.map .str))]

def serialize (f : FreshnessMarks) : JsString := (Json.stringify f.toJson).getD []

def key (author : Author) (app : Label) : JsString := hexOf author.bytes ++ colon :: app.text

/-- The mark, none for `-Infinity`. -/
def get (f : FreshnessMarks) (author : Author) (app : Label) : Option Nat :=
  f.marks.get (key author app)

def isRevoked (f : FreshnessMarks) (author : Author) : Bool := f.revoked.contains (hexOf author.bytes)

end FreshnessMarks

/-- The store of a node: what it holds and the text last persisted. -/
structure FreshnessNode where
  memory : FreshnessMarks
  text : Option JsString

/-- Why a call throws. -/
inductive FreshnessError where
  | version
  | notPersisted
  deriving DecidableEq

namespace FreshnessNode

/-- The safe integer a version is, none for `NaN`, the infinities and any other number. -/
def safeVersion (version : Option ℚ) : Option Nat := version.bind fun q => (Json.num q).safeNat?

/-- `set`. `persists` is whether the write goes through. -/
def set (s : FreshnessNode) (author : Author) (app : Label) (version : Option ℚ)
    (persists : Bool) : Except FreshnessError Unit × FreshnessNode :=
  match safeVersion version with
  | none => (.error .version, s)
  | some n =>
    let k := FreshnessMarks.key author app
    let cur := s.memory.marks.get k
    if cur.any fun c => decide (n ≤ c) then (.ok (), s)
    else
      let memory := { s.memory with marks := s.memory.marks.set k n }
      if persists then (.ok (), ⟨memory, some memory.serialize⟩)
      else
        let back := match cur with
          | none => memory.marks.delete k
          | some c => memory.marks.set k c
        (.error .notPersisted, { s with memory := { memory with marks := back } })

def revoke (s : FreshnessNode) (author : Author) (persists : Bool) :
    Except FreshnessError Unit × FreshnessNode :=
  let hex := hexOf author.bytes
  if s.memory.revoked.contains hex then (.ok (), s)
  else
    let memory := { s.memory with revoked := FreshnessMarks.addTo s.memory.revoked hex }
    if persists then (.ok (), ⟨memory, some memory.serialize⟩)
    else
      (.error .notPersisted, { s with
        memory := { memory with revoked := memory.revoked.filter fun a => decide (a ≠ hex) } })

/-- The store made anew from the text last persisted. -/
def reload (s : FreshnessNode) : Except Corrupt FreshnessNode :=
  (FreshnessMarks.ofText s.text).map fun memory => { s with memory := memory }

/-- What is asked of a store. -/
inductive Call where
  | set (author : Author) (app : Label) (version : Option ℚ) (persists : Bool)
  | revoke (author : Author) (persists : Bool)
  | reload

/-- One call: what it throws, and the node after it. A text the constructor refuses would stop
the node there. -/
def step (s : FreshnessNode) : Call → Option FreshnessError × FreshnessNode
  | .set author app version persists =>
    match s.set author app version persists with
    | (.ok _, s') => (none, s')
    | (.error e, s') => (some e, s')
  | .revoke author persists =>
    match s.revoke author persists with
    | (.ok _, s') => (none, s')
    | (.error e, s') => (some e, s')
  | .reload =>
    match s.reload with
    | .ok s' => (none, s')
    | .error _ => (none, s)

def run (s : FreshnessNode) (calls : List Call) : FreshnessNode :=
  calls.foldl (fun s c => (s.step c).2) s

end FreshnessNode

/-! Hex. -/

theorem hexUnit_lower {n : Nat} (h : n < 16) : isHexUnit (Json.hexUnit n) = true ∧
    lowerUnit (Json.hexUnit n) = Json.hexUnit n := by
  decide +revert

theorem hexOf_length (b : Bytes) : (hexOf b).length = 2 * b.length := by
  induction b with
  | nil => rfl
  | cons x b ih =>
    simp only [hexOf, List.flatMap_cons, List.length_append] at ih ⊢
    rw [ih]
    simp only [hexPair, List.length_cons, List.length_nil]
    omega

theorem mem_hexOf {b : Bytes} {u : UInt16} (h : u ∈ hexOf b) :
    isHexUnit u = true ∧ lowerUnit u = u := by
  obtain ⟨x, -, hx⟩ := List.mem_flatMap.1 h
  have hlt := x.toNat_lt
  obtain rfl | hx := List.mem_cons.1 hx
  · exact hexUnit_lower (by omega)
  · rw [List.mem_singleton.1 hx]
    exact hexUnit_lower (by omega)

theorem lower_hex {u : UInt16} (h : isHexUnit u = true) :
    isHexUnit (lowerUnit u) = true ∧ lowerUnit (lowerUnit u) = lowerUnit u := by
  unfold lowerUnit
  split
  · next hu =>
    have hsum : (u + 32).toNat = u.toNat + 32 := by
      rw [UInt16.toNat_add]
      have h32 : (32 : UInt16).toNat = 32 := rfl
      omega
    have hbig : ¬ (65 ≤ (u + 32).toNat ∧ (u + 32).toNat ≤ 90) := by omega
    refine ⟨?_, if_neg hbig⟩
    simp only [isHexUnit, Json.hexValue] at h ⊢
    rw [hsum]
    split_ifs at h ⊢ <;> first | rfl | omega
  · exact ⟨h, rfl⟩

/-- 64 hex digits in lower case. -/
structure LowerHex (a : JsString) : Prop where
  hex : isHex64 a = true
  lower : toLowerCase a = a

theorem LowerHex.length {a : JsString} (h : LowerHex a) : a.length = 64 := by
  have hhex := h.hex
  simp only [isHex64, Bool.and_eq_true, decide_eq_true_eq] at hhex
  exact hhex.1

theorem toLowerCase_same {a : JsString} (h : ∀ u ∈ a, lowerUnit u = u) : toLowerCase a = a := by
  have hmap : a.map lowerUnit = a.map id := List.map_congr_left h
  rwa [List.map_id] at hmap

theorem author_hex (author : Author) : LowerHex (hexOf author.bytes) := by
  constructor
  · have hall : ∀ u ∈ hexOf author.bytes, isHexUnit u = true := fun u hu => (mem_hexOf hu).1
    simp [isHex64, hexOf_length, author.length, List.all_eq_true.2 hall]
  · exact toLowerCase_same fun u hu => (mem_hexOf hu).2

theorem lowered_hex {a : JsString} (h : isHex64 a = true) : LowerHex (toLowerCase a) := by
  simp only [isHex64, Bool.and_eq_true, decide_eq_true_eq, List.all_eq_true] at h
  constructor
  · simp only [isHex64, toLowerCase, List.length_map, h.1, decide_true, Bool.true_and,
      List.all_map, List.all_eq_true]
    exact fun u hu => (lower_hex (h.2 u hu)).1
  · apply toLowerCase_same
    intro u hu
    obtain ⟨v, hv, rfl⟩ := List.mem_map.1 hu
    exact (lower_hex (h.2 v hv)).2

namespace FreshnessMarks

/-- The key of a mark, as the constructor takes it and leaves it. -/
structure KeyOk (k : JsString) : Prop where
  author : LowerHex (k.take 64)
  colon : k[64]? = some colon
  label : k.length ≠ 65

theorem keyOk_append {hex : JsString} (h : LowerHex hex) {rest : JsString}
    (hcolon : rest[0]? = some Bundle.colon) (hlabel : rest.length ≠ 1) : KeyOk (hex ++ rest) := by
  have hlen := h.length
  refine ⟨?_, ?_, ?_⟩
  · rwa [List.take_append_of_le_length (by omega), List.take_of_length_le (by omega)]
  · rw [List.getElem?_append_right (by omega), hlen]
    exact hcolon
  · rw [List.length_append, hlen]
    omega

theorem key_ok (author : Author) (app : Label) : KeyOk (key author app) := by
  apply keyOk_append (author_hex author) rfl
  have hpos := List.length_pos_iff.2 app.nonempty
  rw [List.length_cons]
  omega

/-- What every store holds: keys and ids the constructor reads back as they are. -/
structure Sound (f : FreshnessMarks) : Prop where
  keys : ∀ e ∈ f.marks.entries, KeyOk e.1
  versions : ∀ e ∈ f.marks.entries, e.2 ≤ 2 ^ 53 - 1
  hex : ∀ a ∈ f.revoked, LowerHex a
  once : f.revoked.Nodup

theorem isRevoked_iff (f : FreshnessMarks) (author : Author) :
    f.isRevoked author = true ↔ hexOf author.bytes ∈ f.revoked := List.contains_iff_mem

theorem addTo_new {set : List JsString} {a : JsString} (h : a ∉ set) : addTo set a = set ++ [a] :=
  if_neg fun hc => h (List.contains_iff_mem.mp hc)

theorem addTo_mem (set : List JsString) (a b : JsString) : b ∈ addTo set a ↔ b ∈ set ∨ b = a := by
  unfold addTo
  split
  · next h =>
    constructor
    · exact .inl
    · rintro (hb | rfl)
      · exact hb
      · exact List.contains_iff_mem.mp h
  · simp

theorem addTo_nodup {set : List JsString} (h : set.Nodup) (a : JsString) : (addTo set a).Nodup := by
  unfold addTo
  split
  · exact h
  · next ha =>
    rw [List.nodup_append]
    refine ⟨h, List.nodup_singleton a, fun b hb c hc hbc => ha (List.contains_iff_mem.mpr ?_)⟩
    rwa [← List.mem_singleton.1 hc, ← hbc]

/-! What the constructor takes is sound. -/

theorem readMarks_sound {marks marks' : OrdMap JsString Nat} {es : List (JsString × Json)}
    (h : readMarks marks es = .ok marks') (hk : ∀ e ∈ marks.entries, KeyOk e.1)
    (hv : ∀ e ∈ marks.entries, e.2 ≤ 2 ^ 53 - 1) :
    (∀ e ∈ marks'.entries, KeyOk e.1) ∧ ∀ e ∈ marks'.entries, e.2 ≤ 2 ^ 53 - 1 := by
  induction es generalizing marks with
  | nil =>
    cases h
    exact ⟨hk, hv⟩
  | cons e es ih =>
    obtain ⟨k, v⟩ := e
    simp only [readMarks] at h
    split at h
    · cases h
    · next hbad =>
      split at h
      · cases h
      · next n hn =>
        simp only [not_or, Bool.not_eq_false, ne_eq, not_not] at hbad
        obtain ⟨hhex, hcolon, hlen⟩ := hbad
        have hkey : KeyOk (toLowerCase (k.take 64) ++ k.drop 64) := by
          apply keyOk_append (lowered_hex hhex)
          · rwa [List.getElem?_drop]
          · obtain ⟨hlt, -⟩ := List.getElem?_eq_some_iff.1 hcolon
            rw [List.length_drop]
            omega
        have hset : ∀ e ∈ (marks.set (toLowerCase (k.take 64) ++ k.drop 64) n).entries,
            e = (toLowerCase (k.take 64) ++ k.drop 64, n) ∨ e ∈ marks.entries := by
          rintro ⟨k', v'⟩ he
          obtain ⟨rfl, rfl⟩ | ⟨-, he⟩ := (OrdMap.mem_put _ _ _ _ _ marks.nodup).1 he
          · exact .inl rfl
          · exact .inr he
        refine ih h (fun e he => ?_) fun e he => ?_
        · obtain rfl | he := hset e he
          · exact hkey
          · exact hk e he
        · obtain rfl | he := hset e he
          · exact Json.safeNat?_le hn
          · exact hv e he

theorem readRevoked_sound {revoked revoked' : List JsString} {items : List Json}
    (h : readRevoked revoked items = .ok revoked') (hhex : ∀ a ∈ revoked, LowerHex a)
    (honce : revoked.Nodup) : (∀ a ∈ revoked', LowerHex a) ∧ revoked'.Nodup := by
  induction items generalizing revoked with
  | nil =>
    cases h
    exact ⟨hhex, honce⟩
  | cons item items ih =>
    simp only [readRevoked] at h
    split at h
    · cases h
    · next a ha =>
      split at h
      · cases h
      · next hbad =>
        refine ih h (fun b hb => ?_) (addTo_nodup honce _)
        obtain hb | rfl := (addTo_mem _ _ _).1 hb
        · exact hhex b hb
        · exact lowered_hex (by simpa using hbad)

theorem ofText_sound {text : Option JsString} {f : FreshnessMarks} (h : ofText text = .ok f) :
    f.Sound := by
  unfold ofText at h
  split at h
  · cases h
    exact ⟨by simp [empty, OrdMap.empty], by simp [empty, OrdMap.empty], by simp [empty],
      by simp [empty]⟩
  · split at h
    · cases h
    · split at h
      · cases h
      · split at h
        · split at h
          · split at h
            · cases h
            · next marks hmarks =>
              split at h
              · next items _ =>
                cases hrevoked : readRevoked [] items with
                | error e =>
                  rw [hrevoked] at h
                  cases h
                | ok revoked =>
                rw [hrevoked] at h
                cases h
                obtain ⟨hk, hv⟩ := readMarks_sound hmarks (by simp [OrdMap.empty])
                  (by simp [OrdMap.empty])
                obtain ⟨hhex, honce⟩ := readRevoked_sound hrevoked (by simp) List.nodup_nil
                exact ⟨hk, hv, hhex, honce⟩
              · cases h
          · cases h
        · cases h

/-! What `serialize` writes reads back. -/

theorem stringify_toJson {f : FreshnessMarks} (h : f.Sound) :
    Json.stringify f.toJson = some f.serialize := by
  have hmarks : ∃ ts, Json.stringifyFields
      (f.marks.entries.map fun e => (e.1, Json.num e.2)) = some ts := by
    apply Json.stringifyFields_some
    intro g hg
    obtain ⟨e, he, rfl⟩ := List.mem_map.1 hg
    exact Json.stringify_nat (h.versions e he)
  have hrevoked : ∃ ts, Json.stringifyItems (f.revoked.map .str) = some ts := by
    apply Json.stringifyItems_some
    intro v hv
    obtain ⟨a, -, rfl⟩ := List.mem_map.1 hv
    exact ⟨_, rfl⟩
  obtain ⟨ms, hms⟩ := hmarks
  obtain ⟨rs, hrs⟩ := hrevoked
  obtain ⟨ts, hts⟩ : ∃ ts, Json.stringifyFields
      [(js "marks", .obj (f.marks.entries.map fun e => (e.1, .num e.2))),
        (js "revoked", .arr (f.revoked.map .str))] = some ts := by
    apply Json.stringifyFields_some
    intro g hg
    obtain rfl | hg := List.mem_cons.1 hg
    · exact ⟨123 :: ms, by simp only [Json.stringify, hms, Option.map_some]⟩
    · rw [List.mem_singleton.1 hg]
      exact ⟨91 :: rs, by simp only [Json.stringify, hrs, Option.map_some]⟩
  have ht : Json.stringify f.toJson = some (123 :: ts) := by
    simp only [toJson, Json.stringify, hts, Option.map_some]
  rw [serialize, ht]
  rfl

theorem objectEntries_nodup (fields : List (JsString × Json))
    (h : (fields.map Prod.fst).Nodup) : objectEntries fields = fields := by
  have hfold : ∀ es fs : List (JsString × Json), ((es ++ fs).map Prod.fst).Nodup →
      fs.foldl (fun es f => OrdMap.put f.1 f.2 es) es = es ++ fs := by
    intro es fs
    induction fs generalizing es with
    | nil => simp
    | cons f fs ih =>
      intro hn
      have hnew : f.1 ∉ es.map Prod.fst := by
        rw [List.map_append, List.nodup_append] at hn
        exact fun hmem => hn.2.2 _ hmem f.1 (by simp) rfl
      have hsplit : es ++ f :: fs = (es ++ [f]) ++ fs := by simp
      rw [List.foldl_cons, OrdMap.put_new f.1 f.2 hnew, ih (es ++ [f]) (hsplit ▸ hn), hsplit]
  simpa [objectEntries] using hfold [] fields h

theorem readMarks_entries {es : List (JsString × Nat)} (marks : OrdMap JsString Nat)
    (hk : ∀ e ∈ es, KeyOk e.1) (hv : ∀ e ∈ es, e.2 ≤ 2 ^ 53 - 1)
    (hn : ((marks.entries ++ es).map Prod.fst).Nodup) :
    ∃ marks', readMarks marks (es.map fun e => (e.1, Json.num e.2)) = .ok marks' ∧
      marks'.entries = marks.entries ++ es := by
  induction es generalizing marks with
  | nil => exact ⟨marks, rfl, by simp⟩
  | cons e es ih =>
    obtain ⟨k, n⟩ := e
    obtain ⟨hauthor, hcolon, hlabel⟩ := hk (k, n) List.mem_cons_self
    have hnew : k ∉ marks.entries.map Prod.fst := by
      rw [List.map_append, List.nodup_append] at hn
      exact fun hmem => hn.2.2 _ hmem k (by simp) rfl
    have hset : (marks.set k n).entries = marks.entries ++ [(k, n)] := OrdMap.put_new k n hnew
    have hn' : (((marks.set k n).entries ++ es).map Prod.fst).Nodup := by
      rw [hset]
      simpa using hn
    obtain ⟨marks', hread, hentries⟩ := ih (marks.set k n)
      (fun e he => hk e (List.mem_cons_of_mem _ he)) (fun e he => hv e (List.mem_cons_of_mem _ he)) hn'
    refine ⟨marks', ?_, by rw [hentries, hset]; simp⟩
    have hgood : ¬ (isHex64 (k.take 64) = false ∨ k[64]? ≠ some colon ∨ k.length = 65) := by
      rw [hauthor.hex]
      rintro (hbad | hbad | hbad)
      · cases hbad
      · exact hbad hcolon
      · exact hlabel hbad
    have hsafe : (Json.num (n : ℚ)).safeNat? = some n :=
      Json.safeNat?_nat (hv (k, n) List.mem_cons_self)
    simp only [List.map_cons, readMarks, hgood, if_false, hsafe, hauthor.lower,
      List.take_append_drop]
    exact hread

theorem readRevoked_items {items : List JsString} (revoked : List JsString) (hhex : ∀ a ∈ items, LowerHex a)
    (hn : (revoked ++ items).Nodup) :
    readRevoked revoked (items.map .str) = .ok (revoked ++ items) := by
  induction items generalizing revoked with
  | nil => simp [readRevoked]
  | cons a items ih =>
    obtain ⟨hhex', hlower⟩ := hhex a List.mem_cons_self
    have hnew : a ∉ revoked := by
      rw [List.nodup_append] at hn
      exact fun hmem => hn.2.2 a hmem a List.mem_cons_self rfl
    have hsplit : revoked ++ a :: items = (revoked ++ [a]) ++ items := by simp
    have hrest := ih (revoked ++ [a]) (fun b hb => hhex b (List.mem_cons_of_mem _ hb))
      (hsplit ▸ hn)
    simp only [List.map_cons, readRevoked, Json.str?, hhex', Bool.true_eq_false, if_false, hlower,
      addTo_new hnew]
    rw [hrest, hsplit]

/-- A store made from what another serialized is the same. -/
theorem ofText_serialize {f : FreshnessMarks} (h : f.Sound) :
    ofText (some f.serialize) = .ok f := by
  have hparse := Json.parse_stringify (stringify_toJson h)
  have hentries := objectEntries_nodup (f.marks.entries.map fun e => (e.1, Json.num e.2))
    (by simpa [Function.comp_def] using f.marks.nodup)
  obtain ⟨marks, hmarks, heq⟩ := readMarks_entries .empty h.keys h.versions
    (by simpa [OrdMap.empty] using f.marks.nodup)
  obtain rfl : marks = f.marks := OrdMap.ext_entries (by simpa [OrdMap.empty] using heq)
  have hrevoked := readRevoked_items [] h.hex (by simpa using h.once)
  have hfm : f.toJson.field (js "marks") =
      some (.obj (f.marks.entries.map fun e => (e.1, Json.num e.2))) := rfl
  have hfr : f.toJson.field (js "revoked") = some (.arr (f.revoked.map .str)) := rfl
  have hrec : f.toJson.isRecord = true := rfl
  simp only [ofText, hparse, hrec, Bool.true_eq_false, if_false, hfm, hfr, hentries, hmarks,
    hrevoked]
  rfl

end FreshnessMarks

namespace FreshnessNode

open FreshnessMarks (Sound)

/-! One call. -/

theorem safeVersion_le {version : Option ℚ} {n : Nat} (h : safeVersion version = some n) :
    n ≤ 2 ^ 53 - 1 := by
  obtain ⟨q, -, hq⟩ := Option.bind_eq_some_iff.1 h
  exact Json.safeNat?_le hq

/-- A mark that failed to persist is taken back. -/
theorem set_back (marks : OrdMap JsString Nat) (k : JsString) (n : Nat) :
    (match marks.get k with
      | none => (marks.set k n).delete k
      | some c => (marks.set k n).set k c) = marks := by
  split
  · next h => exact OrdMap.delete_set_new marks k n h
  · next c h => exact OrdMap.set_set_back marks k n c h

theorem revoke_back {revoked : List JsString} {hex : JsString} (h : hex ∉ revoked) :
    (FreshnessMarks.addTo revoked hex).filter (fun a => decide (a ≠ hex)) = revoked := by
  have hkeep : revoked.filter (fun a => decide (a ≠ hex)) = revoked := by
    rw [List.filter_eq_self]
    intro a ha
    have hne : a ≠ hex := by
      rintro rfl
      exact h ha
    simpa using hne
  rw [FreshnessMarks.addTo_new h, List.filter_append, hkeep]
  simp

/-- What `set` does, case by case. -/
theorem set_cases (s : FreshnessNode) (author : Author) (app : Label) (version : Option ℚ)
    (persists : Bool) :
    (∃ e, s.set author app version persists = (.error e, s)) ∨
      ∃ n, safeVersion version = some n ∧
        ((∃ c, s.memory.get author app = some c ∧ n ≤ c) ∧
            s.set author app version persists = (.ok (), s) ∨
          (∀ c, s.memory.get author app = some c → c < n) ∧ persists = true ∧
            ∃ memory : FreshnessMarks, memory =
                { s.memory with marks := s.memory.marks.set (FreshnessMarks.key author app) n } ∧
              s.set author app version persists =
                (.ok (), ⟨memory, some memory.serialize⟩)) := by
  unfold set
  split
  · exact .inl ⟨_, rfl⟩
  · next n hn =>
    dsimp only
    split
    · next hcur =>
      cases hc : s.memory.marks.get (FreshnessMarks.key author app) with
      | none =>
        rw [hc] at hcur
        cases hcur
      | some c =>
        rw [hc] at hcur
        exact .inr ⟨n, hn, .inl ⟨⟨c, hc, by simpa using hcur⟩, rfl⟩⟩
    · next hcur =>
      split
      · refine .inr ⟨n, hn, .inr ⟨fun c hc => ?_, by assumption, _, rfl, rfl⟩⟩
        by_contra hlt
        apply hcur
        rw [show s.memory.marks.get (FreshnessMarks.key author app) = some c from hc]
        simpa using Nat.le_of_not_lt hlt
      · refine .inl ⟨.notPersisted, ?_⟩
        rw [set_back]

theorem revoke_cases (s : FreshnessNode) (author : Author) (persists : Bool) :
    s.revoke author persists = (.error .notPersisted, s) ∨
      s.memory.isRevoked author = true ∧ s.revoke author persists = (.ok (), s) ∨
      persists = true ∧ ∃ memory : FreshnessMarks, memory =
          { s.memory with
            revoked := FreshnessMarks.addTo s.memory.revoked (hexOf author.bytes) } ∧
        s.revoke author persists = (.ok (), ⟨memory, some memory.serialize⟩) := by
  unfold revoke
  dsimp only
  split
  · next hin => exact .inr (.inl ⟨hin, rfl⟩)
  · next hout =>
    split
    · exact .inr (.inr ⟨by assumption, _, rfl, rfl⟩)
    · left
      rw [revoke_back fun hin => hout (List.contains_iff_mem.mpr hin)]

/-- What is persisted is what the store holds. -/
structure Kept (s : FreshnessNode) : Prop where
  sound : s.memory.Sound
  persisted : FreshnessMarks.ofText s.text = .ok s.memory

variable {s : FreshnessNode}

theorem Kept.reload (h : s.Kept) : s.reload = .ok s := by
  rw [FreshnessNode.reload, h.persisted]
  rfl

theorem mark_sound {f : FreshnessMarks} (h : f.Sound) (author : Author) (app : Label) {n : Nat}
    (hn : n ≤ 2 ^ 53 - 1) :
    Sound { f with marks := f.marks.set (FreshnessMarks.key author app) n } := by
  have hmem : ∀ e ∈ (f.marks.set (FreshnessMarks.key author app) n).entries,
      e = (FreshnessMarks.key author app, n) ∨ e ∈ f.marks.entries := by
    rintro ⟨k, v⟩ he
    obtain ⟨rfl, rfl⟩ | ⟨-, he⟩ := (OrdMap.mem_put _ _ _ _ _ f.marks.nodup).1 he
    · exact .inl rfl
    · exact .inr he
  refine ⟨fun e he => ?_, fun e he => ?_, h.hex, h.once⟩
  · obtain rfl | he := hmem e he
    · exact FreshnessMarks.key_ok author app
    · exact h.keys e he
  · obtain rfl | he := hmem e he
    · exact hn
    · exact h.versions e he

theorem revoked_sound {f : FreshnessMarks} (h : f.Sound) (author : Author) :
    Sound { f with revoked := FreshnessMarks.addTo f.revoked (hexOf author.bytes) } := by
  refine ⟨h.keys, h.versions, fun a ha => ?_, FreshnessMarks.addTo_nodup h.once _⟩
  obtain ha | rfl := (FreshnessMarks.addTo_mem _ _ _).1 ha
  · exact h.hex a ha
  · exact author_hex author

theorem wrote_kept {memory : FreshnessMarks} (h : memory.Sound) :
    Kept ⟨memory, some memory.serialize⟩ := ⟨h, FreshnessMarks.ofText_serialize h⟩

/-- The store's answers only grow. -/
structure Grown (s s' : FreshnessNode) : Prop where
  mark : ∀ author app n, s.memory.get author app = some n →
    ∃ n', s'.memory.get author app = some n' ∧ n ≤ n'
  revoked : ∀ author, s.memory.isRevoked author = true → s'.memory.isRevoked author = true

theorem Grown.refl (s : FreshnessNode) : Grown s s := ⟨fun _ _ n h => ⟨n, h, le_rfl⟩, fun _ h => h⟩

theorem Grown.trans {s s' s'' : FreshnessNode} (h : Grown s s') (h' : Grown s' s'') :
    Grown s s'' := by
  refine ⟨fun author app n hn => ?_, fun author hr => h'.revoked author (h.revoked author hr)⟩
  obtain ⟨n', hn', hle⟩ := h.mark author app n hn
  obtain ⟨n'', hn'', hle'⟩ := h'.mark author app n' hn'
  exact ⟨n'', hn'', hle.trans hle'⟩

theorem mark_grown (s : FreshnessNode) (author : Author) (app : Label) {n : Nat}
    (hnew : ∀ c, s.memory.get author app = some c → c < n) (text : Option JsString) :
    Grown s ⟨{ s.memory with
      marks := s.memory.marks.set (FreshnessMarks.key author app) n }, text⟩ := by
  refine ⟨fun author' app' c hc => ?_, fun _ hr => hr⟩
  simp only [FreshnessMarks.get, OrdMap.get_set]
  split
  · next hk =>
    refine ⟨n, rfl, (hnew c ?_).le⟩
    rwa [FreshnessMarks.get, hk] at hc
  · exact ⟨c, hc, le_rfl⟩

theorem revoked_grown (s : FreshnessNode) (hex : JsString) (text : Option JsString) :
    Grown s ⟨{ s.memory with revoked := FreshnessMarks.addTo s.memory.revoked hex }, text⟩ := by
  refine ⟨fun author app n hn => ⟨n, hn, le_rfl⟩, fun author hr => ?_⟩
  rw [FreshnessMarks.isRevoked_iff] at hr ⊢
  exact (FreshnessMarks.addTo_mem _ _ _).2 (.inl hr)

/-- One call keeps the store, grows it, and leaves it as it is where it throws. -/
theorem Kept.step (h : s.Kept) (c : Call) :
    (s.step c).2.Kept ∧ Grown s (s.step c).2 ∧ ((s.step c).1.isSome = true → (s.step c).2 = s) := by
  cases c with
  | set author app version persists =>
    obtain ⟨e, he⟩ | ⟨n, hn, ⟨-, he⟩ | ⟨hnew, -, memory, rfl, he⟩⟩ :=
      set_cases s author app version persists
    · simp only [FreshnessNode.step, he]
      exact ⟨h, .refl s, fun _ => trivial⟩
    · simp only [FreshnessNode.step, he]
      exact ⟨h, .refl s, fun _ => trivial⟩
    · simp only [FreshnessNode.step, he]
      exact ⟨wrote_kept (mark_sound h.sound author app (safeVersion_le hn)),
        mark_grown s author app hnew _, nofun⟩
  | revoke author persists =>
    obtain he | ⟨-, he⟩ | ⟨-, memory, rfl, he⟩ := revoke_cases s author persists
    · simp only [FreshnessNode.step, he]
      exact ⟨h, .refl s, fun _ => trivial⟩
    · simp only [FreshnessNode.step, he]
      exact ⟨h, .refl s, fun _ => trivial⟩
    · simp only [FreshnessNode.step, he]
      exact ⟨wrote_kept (revoked_sound h.sound author), revoked_grown s _ _, nofun⟩
  | reload =>
    simp only [FreshnessNode.step, h.reload]
    exact ⟨h, .refl s, fun _ => trivial⟩

theorem Kept.run (h : s.Kept) (calls : List Call) : (s.run calls).Kept ∧ Grown s (s.run calls) := by
  induction calls generalizing s with
  | nil => exact ⟨h, .refl s⟩
  | cons c calls ih =>
    obtain ⟨hk, hg, -⟩ := h.step c
    obtain ⟨hk', hg'⟩ := ih hk
    exact ⟨hk', hg.trans hg'⟩

/-- A call that is persisted, or asked again until it is, has its effect. -/
theorem set_effect (s : FreshnessNode) (author : Author) (app : Label) {version : Option ℚ}
    {n : Nat} (hn : safeVersion version = some n) :
    (s.step (.set author app version true)).1 = none ∧
      (s.step (.set author app version true)).2.memory.get author app =
        some (max ((s.memory.get author app).getD 0) n) := by
  have hno : ∀ e, s.set author app version true ≠ (.error e, s) := by
    intro e he
    simp only [FreshnessNode.set, hn, if_true] at he
    split at he <;> cases he
  obtain ⟨e, he⟩ | ⟨m, hm, ⟨⟨c, hc, hle⟩, he⟩ | ⟨hnew, -, memory, rfl, he⟩⟩ :=
    set_cases s author app version true
  · exact absurd he (hno e)
  · obtain rfl : n = m := Option.some.inj (hn.symm.trans hm)
    simp only [FreshnessNode.step, he, hc, Option.getD_some]
    exact ⟨trivial, by rw [Nat.max_eq_left hle]⟩
  · obtain rfl : n = m := Option.some.inj (hn.symm.trans hm)
    simp only [FreshnessNode.step, he]
    refine ⟨trivial, ?_⟩
    have hmax : max ((s.memory.get author app).getD 0) n = n := by
      cases hc : s.memory.get author app with
      | none => simp
      | some c => exact Nat.max_eq_right (hnew c hc).le
    rw [hmax]
    simp [FreshnessMarks.get]

theorem revoke_effect (s : FreshnessNode) (author : Author) :
    (s.step (.revoke author true)).1 = none ∧
      (s.step (.revoke author true)).2.memory.isRevoked author = true := by
  have hno : s.revoke author true ≠ (.error .notPersisted, s) := by
    intro he
    simp only [FreshnessNode.revoke, if_true] at he
    split at he <;> cases he
  obtain he | ⟨hin, he⟩ | ⟨-, memory, rfl, he⟩ := revoke_cases s author true
  · exact absurd he hno
  · simp only [FreshnessNode.step, he, hin, and_self]
  · simp only [FreshnessNode.step, he]
    refine ⟨trivial, ?_⟩
    rw [FreshnessMarks.isRevoked_iff]
    exact (FreshnessMarks.addTo_mem _ _ _).2 (.inr rfl)

/-- The store holds what was last persisted, and a copy made of it answers as it does; no call
lowers a mark or takes a revocation back; a call that throws changes nothing, and the same call
persisted has its effect. -/
structure Durable (s : FreshnessNode) : Prop where
  persisted : FreshnessMarks.ofText s.text = .ok s.memory
  copy : ∃ f, FreshnessMarks.ofText (some s.memory.serialize) = .ok f ∧
    (∀ author app, f.get author app = s.memory.get author app) ∧
    ∀ author, f.isRevoked author = s.memory.isRevoked author
  grown : ∀ calls, Grown s (s.run calls)
  throws : ∀ c, (s.step c).1.isSome = true → (s.step c).2 = s
  set : ∀ author app version n, safeVersion version = some n →
    (s.step (.set author app version true)).1 = none ∧
      (s.step (.set author app version true)).2.memory.get author app =
        some (max ((s.memory.get author app).getD 0) n)
  revoke : ∀ author, (s.step (.revoke author true)).1 = none ∧
    (s.step (.revoke author true)).2.memory.isRevoked author = true

theorem Kept.durable (h : s.Kept) : s.Durable where
  persisted := h.persisted
  copy := ⟨_, FreshnessMarks.ofText_serialize h.sound, fun _ _ => rfl, fun _ => rfl⟩
  grown calls := (h.run calls).2
  throws c := (h.step c).2.2
  set author app _ _ hn := set_effect s author app hn
  revoke := revoke_effect s

/-- Whatever writes fail and whenever it is made anew from its text, a store stays durable. -/
theorem run_durable {text : Option JsString} {f : FreshnessMarks}
    (h : FreshnessMarks.ofText text = .ok f) (calls : List Call) :
    ((FreshnessNode.mk f text).run calls).Durable :=
  ((Kept.mk (FreshnessMarks.ofText_sound h) h).run calls).1.durable

/-- A first boot marks a label, fails to revoke its author, and reads its text back. -/
theorem firstBoot_durable : ((FreshnessNode.mk .empty none).run
    [.set ⟨List.replicate 32 7, rfl⟩ ⟨js "notes", by decide⟩ (some 3) true,
      .revoke ⟨List.replicate 32 7, rfl⟩ false, .reload]).Durable :=
  run_durable rfl _

end FreshnessNode

end Bundle

end SeedTransport
