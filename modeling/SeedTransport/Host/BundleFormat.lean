import SeedTransport.Host.Manifest
import SeedTransport.Lib.JsonText
import SeedTransport.Util

set_option autoImplicit false

namespace SeedTransport

namespace Bundle

open Utf

/-! The signed envelope of a bundle and of a host blob, and the parts of its body
(`host/bundle.ts`, `host/host-blob.ts`, `scripts/bundle-author.ts`, `native/hostblob.go`). -/

/-- What the platform does with texts: `JSON.stringify`, `JSON.parse`, a `TextDecoder`, and the
parser behind `stripComments`. -/
structure Texts where
  stringify : Json → Option JsString
  parse : JsString → Option Json
  decode : Bytes → JsString
  stripComments : JsString → JsString

/-- The crypto of a host, and of an author. -/
structure ManifestCrypto where
  hash : Bytes → Bytes
  edVerify : Bytes → Bytes → Bytes → Bool
  mlVerify : Bytes → Bytes → Bytes → Bool
  edSign : Bytes → Bytes → Bytes
  mlSign : Bytes → Bytes → Bytes

structure Keypair where
  publicKey : Bytes
  privateKey : Bytes

structure HybridAuthorKeys where
  ed : Keypair
  mlDsa : Keypair

def DOMAIN_MANIFEST : Bytes := Utf.utf8Encode (js "seedkernel-manifest-sig-v1\x00")

def DOMAIN_MANIFEST_AUTHOR : Bytes := Utf.utf8Encode (js "seedkernel-manifest-author-v1\x00")

def DOMAIN_HOST : Bytes := Utf.utf8Encode (js "seedkernel-host-sig-v1\x00")

/-- `SUITE_MANIFEST_HYBRID_PQ` -/
def SUITE : UInt8 := 2

def OFF_ED_PK : Nat := 1

def OFF_ML_PK : Nat := OFF_ED_PK + 32

def OFF_ED_SIG : Nat := OFF_ML_PK + 1952

def OFF_ML_SIG : Nat := OFF_ED_SIG + 64

def OFF_BODY : Nat := OFF_ML_SIG + 3309

def subarray (b : Bytes) (start stop : Nat) : Bytes := (b.take stop).drop start

def envelopeSigningInput (c : ManifestCrypto) (domain edPk mlPk body : Bytes) : Bytes :=
  domain ++ SUITE :: (edPk ++ mlPk ++ c.hash body)

def hybridAuthorId (c : ManifestCrypto) (edPk mlPk : Bytes) : Bytes :=
  c.hash (DOMAIN_MANIFEST_AUTHOR ++ SUITE :: (edPk ++ mlPk))

/-! Reading. -/

/-- Why a blob is refused. -/
inductive BundleError where
  | signatureInvalid
  | unsupportedSuite (suite : UInt8)
  | truncated
  | notJson
  | noGuest
  | manifest (e : ManifestError)
  | hostManifest
  | trailing

/-- The parts of an envelope before its body. -/
structure EnvelopeHead where
  edPk : Bytes
  mlPk : Bytes
  edSig : Bytes
  mlSig : Bytes

def envelopeHead (env : Bytes) : EnvelopeHead where
  edPk := subarray env OFF_ED_PK OFF_ML_PK
  mlPk := subarray env OFF_ML_PK OFF_ED_SIG
  edSig := subarray env OFF_ED_SIG OFF_ML_SIG
  mlSig := subarray env OFF_ML_SIG OFF_BODY

def envelopeBody (env : Bytes) : Except BundleError Bytes :=
  match env with
  | [] => .error .signatureInvalid
  | suite :: _ =>
    if suite ≠ SUITE then .error (.unsupportedSuite suite)
    else if env.length < OFF_BODY then .error .signatureInvalid
    else .ok (env.drop OFF_BODY)

structure VerifiedEnvelope where
  author : Bytes
  edPk : Bytes
  mlPk : Bytes
  body : Bytes

def verifyEnvelope (c : ManifestCrypto) (env domain : Bytes) :
    Except BundleError VerifiedEnvelope :=
  match envelopeBody env with
  | .error e => .error e
  | .ok body =>
    let h := envelopeHead env
    let pre := envelopeSigningInput c domain h.edPk h.mlPk body
    if c.edVerify h.edSig pre h.edPk = false then .error .signatureInvalid
    else if c.mlVerify h.mlSig pre h.mlPk = false then .error .signatureInvalid
    else .ok ⟨hybridAuthorId c h.edPk h.mlPk, h.edPk, h.mlPk, body⟩

/-- `bodyReader.next`: a part, and what is left after it. -/
def nextPart (rest : Bytes) : Option (Bytes × Bytes) :=
  if rest.length < 4 then none
  else
    let length := readU32BE rest 0
    if length > rest.length - 4 then none
    else some ((rest.drop 4).take length, rest.drop (4 + length))

/-- `next` once for each of `n` parts. -/
def nextParts : Nat → Bytes → Option (List Bytes × Bytes)
  | 0, rest => some ([], rest)
  | n + 1, rest =>
    match nextPart rest with
    | none => none
    | some (p, rest) => (nextParts n rest).map fun q => (p :: q.1, q.2)

/-- What a bundle's body holds; `manifest` is the value its text is, `view` what that says. -/
structure BundleBody where
  manifest : Json
  view : BundleManifest
  guestSource : JsString
  modules : List (JsString × Bytes)

/-- `verifyBundle` after the envelope. -/
def parseBundleBody (t : Texts) (body : Bytes) : Except BundleError BundleBody :=
  match nextPart body with
  | none => .error .truncated
  | some (json, rest) =>
    match t.parse (t.decode json) with
    | none => .error .notJson
    | some parsed =>
      if parsed.isRecord = true ∧ (parsed.field (js "guest")).isNone then .error .noGuest
      else
        match validateManifest parsed with
        | .error e => .error (.manifest e)
        | .ok view =>
          match nextPart rest with
          | none => .error .truncated
          | some (guest, rest) =>
            match nextParts view.modules.length rest with
            | none => .error .truncated
            | some (wasms, rest) =>
              if rest = [] then .ok ⟨parsed, view, t.decode guest, view.modules.zip wasms⟩
              else .error .trailing

structure VerifiedBundle where
  author : Bytes
  edPk : Bytes
  mlPk : Bytes
  bundle : BundleBody

def verifyBundle (t : Texts) (c : ManifestCrypto) (env : Bytes) :
    Except BundleError VerifiedBundle :=
  match verifyEnvelope c env DOMAIN_MANIFEST with
  | .error e => .error e
  | .ok v => (parseBundleBody t v.body).map fun b => ⟨v.author, v.edPk, v.mlPk, b⟩

/-- The parts of a host blob after its manifest. -/
structure HostBlob where
  version : Nat
  abi : Nat
  script : Bytes
  qjs : Bytes
  sodium : Bytes
  mldsa : Bytes
  transport : Bytes

/-- A safe integer from 1 on. -/
def positiveField (o : Json) (name : JsString) : Option Nat :=
  ((o.field name).bind Json.safeNat?).filter fun n => decide (1 ≤ n)

/-- `parseBody` of `host-blob.ts`. A body cut short in its manifest is no JSON. -/
def parseHostBody (t : Texts) (body : Bytes) : Except BundleError HostBlob :=
  match nextPart body with
  | none => .error .notJson
  | some (json, rest) =>
    match t.parse (t.decode json) with
    | none => .error .notJson
    | some manifest =>
      match positiveField manifest (js "version"), positiveField manifest (js "abi") with
      | some version, some abi =>
        match nextParts 5 rest with
        | some ([script, qjs, sodium, mldsa, transport], rest) =>
          if rest = [] then .ok ⟨version, abi, script, qjs, sodium, mldsa, transport⟩
          else .error .trailing
        | _ => .error .truncated
      | _, _ => .error .hostManifest

def readHostBlob (t : Texts) (env : Bytes) : Except BundleError HostBlob :=
  match envelopeBody env with
  | .error e => .error e
  | .ok body => parseHostBody t body

def verifyHostBlob (t : Texts) (c : ManifestCrypto) (env : Bytes) : Except BundleError HostBlob :=
  match verifyEnvelope c env DOMAIN_HOST with
  | .error e => .error e
  | .ok v => parseHostBody t v.body

/-- How the native loader's `hostParts` ends. -/
inductive HostParts where
  | parts (script qjs : Bytes)
  | truncated
  | panic
  deriving DecidableEq

/-- One turn of its loop. `4 + n` is a `uint32`, and a slice whose end is before its start
panics. -/
def goPart (body : Bytes) : Except HostParts (Bytes × Bytes) :=
  if body.length < 4 ∨ readU32BE body 0 > body.length - 4 then .error .truncated
  else
    let stop := (4 + readU32BE body 0) % 2 ^ 32
    if stop < 4 then .error .panic else .ok (subarray body 4 stop, body.drop stop)

def hostParts (env : Bytes) : HostParts :=
  if env.length < OFF_BODY then .truncated
  else
    match goPart (env.drop OFF_BODY) with
    | .error e => e
    | .ok (_, body) =>
      match goPart body with
      | .error e => e
      | .ok (script, body) =>
        match goPart body with
        | .error e => e
        | .ok (qjs, _) => .parts script qjs

/-! Writing. -/

/-- `OpArgs.blob` -/
def blob (part : Bytes) : Bytes := writeU32BE part.length ++ part

def encodeParts (parts : List Bytes) : Bytes := parts.flatMap blob

def signEnvelope (c : ManifestCrypto) (keys : HybridAuthorKeys) (domain body : Bytes) : Bytes :=
  let pre := envelopeSigningInput c domain keys.ed.publicKey keys.mlDsa.publicKey body
  SUITE :: (keys.ed.publicKey ++ keys.mlDsa.publicKey ++ c.edSign pre keys.ed.privateKey ++
    c.mlSign pre keys.mlDsa.privateKey ++ body)

/-- What an author hands in; `version` is none for a number JSON writes as `null`. -/
structure UnsignedBundle where
  app : JsString
  version : Option ℚ
  protocols : Option (List JsString)
  services : Option (List JsString)
  modules : List (JsString × Bytes)
  guestSource : JsString
  guestRequires : List JsString
  guestConfig : Option Json

def names (l : List JsString) : Json := .arr (l.map .str)

/-- The object `authorBundle` hands to `JSON.stringify`. -/
def UnsignedBundle.toJson (input : UnsignedBundle) : Json :=
  let version := match input.version with
    | none => Json.null
    | some q => .num q
  let optional := fun (name : JsString) (l : Option (List JsString)) =>
    (l.map fun l => (name, names l)).toList
  let config := (input.guestConfig.map fun v => (js "config", v)).toList
  .obj ([(js "app", .str input.app), (js "version", version)] ++
    optional (js "protocols") input.protocols ++ optional (js "services") input.services ++
    [(js "modules", .arr (input.modules.map fun m => .obj [(js "name", .str m.1)])),
      (js "guest", .obj ((js "requires", names input.guestRequires) :: config))])

inductive AuthorError where
  | notJson
  | manifest (e : ManifestError)

structure AuthoredBundle where
  blob : Bytes
  manifest : Json
  author : Bytes

/-- The manifest as a verifier parses it: its text, and the value that is. -/
def manifestOf (t : Texts) (input : UnsignedBundle) : Option Json :=
  (t.stringify input.toJson).bind t.parse

/-- The parts of the body that is signed. -/
def bundleParts (input : UnsignedBundle) (t : Texts) (text : JsString) : List Bytes :=
  Utf.utf8Encode text :: Utf.utf8Encode (t.stripComments input.guestSource) ::
    input.modules.map Prod.snd

def authorBundle (t : Texts) (c : ManifestCrypto) (keys : HybridAuthorKeys)
    (input : UnsignedBundle) : Except AuthorError AuthoredBundle :=
  match manifestOf t input with
  | none => .error .notJson
  | some manifest =>
    match validateManifest manifest with
    | .error e => .error (.manifest e)
    | .ok _ =>
      match t.stringify manifest with
      | none => .error .notJson
      | some text => .ok {
          blob := signEnvelope c keys DOMAIN_MANIFEST (encodeParts (bundleParts input t text))
          manifest := manifest
          author := hybridAuthorId c keys.ed.publicKey keys.mlDsa.publicKey }

/-! Parts. -/

theorem writeU32BE_read {b : Bytes} (h : 4 ≤ b.length) :
    writeU32BE (readU32BE b 0) = b.take 4 ∧ readU32BE b 0 < 2 ^ 32 := by
  obtain _ | ⟨w, _ | ⟨x, _ | ⟨y, _ | ⟨z, b⟩⟩⟩⟩ := b <;> simp at h
  have hw := w.toNat_lt
  have hx := x.toNat_lt
  have hy := y.toNat_lt
  have hz := z.toNat_lt
  have hv : readU32BE (w :: x :: y :: z :: b) 0 =
      w.toNat * 2 ^ 24 + x.toNat * 2 ^ 16 + y.toNat * 2 ^ 8 + z.toNat := by
    simp [readU32BE, byteAt]
  have hbyte : ∀ (n : Nat) (u : UInt8), n % 256 = u.toNat → UInt8.ofNat n = u := by
    intro n u hu
    rw [← UInt8.toNat_inj, UInt8.toNat_ofNat']
    exact hu
  rw [hv]
  refine ⟨?_, by omega⟩
  simp only [writeU32BE, List.take_succ_cons, List.take_zero]
  rw [hbyte _ w (by omega), hbyte _ x (by omega), hbyte _ y (by omega), hbyte _ z (by omega)]

theorem blob_length (p : Bytes) : (blob p).length = 4 + p.length := by
  simp [blob]

/-- A part shorter than 2^32 bytes reads back. -/
theorem nextPart_blob {p : Bytes} (h : p.length < 2 ^ 32) (rest : Bytes) :
    nextPart (blob p ++ rest) = some (p, rest) := by
  have hread : readU32BE (blob p ++ rest) 0 = p.length := by
    rw [blob, List.append_assoc, readU32BE_write, Nat.mod_eq_of_lt h]
  have hlen : (blob p ++ rest).length = 4 + p.length + rest.length := by
    rw [List.length_append, blob_length]
  have h4 : ¬ (blob p ++ rest).length < 4 := by omega
  have hn : ¬ p.length > (blob p ++ rest).length - 4 := by omega
  have hdrop : (blob p ++ rest).drop 4 = p ++ rest := by
    rw [blob, List.append_assoc]
    exact List.drop_left' (writeU32BE_length _)
  simp only [nextPart, h4, if_false, hread, hn, Option.some.injEq, Prod.mk.injEq]
  refine ⟨by rw [hdrop, List.take_left], ?_⟩
  rw [← List.drop_drop, hdrop, List.drop_left]

/-- What was read is a part, at the front. -/
theorem nextPart_some {b p rest : Bytes} (h : nextPart b = some (p, rest)) :
    p.length < 2 ^ 32 ∧ b = blob p ++ rest := by
  unfold nextPart at h
  split at h
  · cases h
  · next h4 =>
    dsimp only at h
    split at h
    · cases h
    · next hlen =>
      cases h
      obtain ⟨hwrite, hlt⟩ := writeU32BE_read (b := b) (by omega)
      have hplen : ((b.drop 4).take (readU32BE b 0)).length = readU32BE b 0 := by
        rw [List.length_take, List.length_drop]
        omega
      refine ⟨by omega, ?_⟩
      rw [blob, hplen, hwrite, List.append_assoc, ← List.drop_drop, List.take_append_drop,
        List.take_append_drop]

theorem nextPart_iff (b p rest : Bytes) :
    nextPart b = some (p, rest) ↔ p.length < 2 ^ 32 ∧ b = blob p ++ rest := by
  constructor
  · exact nextPart_some
  · rintro ⟨h, rfl⟩
    exact nextPart_blob h rest

theorem nextParts_iff (n : Nat) (b : Bytes) (ps : List Bytes) (rest : Bytes) :
    nextParts n b = some (ps, rest) ↔
      ps.length = n ∧ (∀ p ∈ ps, p.length < 2 ^ 32) ∧ b = encodeParts ps ++ rest := by
  induction n generalizing b ps with
  | zero =>
    simp only [nextParts, Option.some.injEq, Prod.mk.injEq, List.length_eq_zero_iff]
    constructor
    · rintro ⟨rfl, rfl⟩
      simp [encodeParts]
    · rintro ⟨rfl, -, rfl⟩
      simp [encodeParts]
  | succ n ih =>
    simp only [nextParts]
    constructor
    · intro h
      split at h
      · cases h
      · next p rest' hp =>
        obtain ⟨⟨ps', rest''⟩, hps, he⟩ := Option.map_eq_some_iff.1 h
        cases he
        obtain ⟨hlen, hall, rfl⟩ := (ih rest' ps').1 hps
        obtain ⟨hlt, rfl⟩ := nextPart_some hp
        refine ⟨by simp [hlen], ?_, by simp [encodeParts]⟩
        intro q hq
        obtain rfl | hq := List.mem_cons.1 hq
        · exact hlt
        · exact hall q hq
    · rintro ⟨hlen, hall, rfl⟩
      cases ps with
      | nil => cases hlen
      | cons p ps =>
        have hp := nextPart_blob (hall p List.mem_cons_self) (encodeParts ps ++ rest)
        have hps := (ih (encodeParts ps ++ rest) ps).2
          ⟨by simpa using hlen, fun q hq => hall q (List.mem_cons_of_mem _ hq), rfl⟩
        have hb : encodeParts (p :: ps) ++ rest = blob p ++ (encodeParts ps ++ rest) := by
          simp [encodeParts]
        simp only [hb, hp, hps, Option.map_some]

/-- Parts are told apart in one way. -/
theorem encodeParts_inj {ps qs : List Bytes} (hp : ∀ p ∈ ps, p.length < 2 ^ 32)
    (hq : ∀ q ∈ qs, q.length < 2 ^ 32) (h : encodeParts ps = encodeParts qs) : ps = qs := by
  induction ps generalizing qs with
  | nil =>
    cases qs with
    | nil => rfl
    | cons q qs => simp [encodeParts, blob, writeU32BE] at h
  | cons p ps ih =>
    cases qs with
    | nil => simp [encodeParts, blob, writeU32BE] at h
    | cons q qs =>
      have h1 := nextPart_blob (hp p List.mem_cons_self) (encodeParts ps)
      have h2 := nextPart_blob (hq q List.mem_cons_self) (encodeParts qs)
      have hsplit : ∀ (r : Bytes) (rs : List Bytes), encodeParts (r :: rs) =
          blob r ++ encodeParts rs := fun r rs => by simp [encodeParts]
      rw [← hsplit, h, hsplit, h2] at h1
      obtain ⟨rfl, hrest⟩ : q = p ∧ encodeParts qs = encodeParts ps := by simpa using h1
      rw [ih (fun r hr => hp r (List.mem_cons_of_mem _ hr))
        (fun r hr => hq r (List.mem_cons_of_mem _ hr)) hrest.symm]

end Bundle

end SeedTransport
