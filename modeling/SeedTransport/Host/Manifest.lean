import SeedTransport.Lib.Json

set_option autoImplicit false

namespace SeedTransport

namespace Bundle

open Utf

/-! What a bundle's manifest may say (`host/bundle.ts`, `host/domains.ts`). -/

/-- The services of `HOST_SERVICES`. -/
inductive ServiceName where
  | node
  | fs
  | timer
  | link
  | host
  deriving DecidableEq

namespace ServiceName

def all : List ServiceName := [.node, .fs, .timer, .link, .host]

def text : ServiceName → JsString
  | .node => js "node"
  | .fs => js "fs"
  | .timer => js "timer"
  | .link => js "link"
  | .host => js "host"

/-- Its `calls`. -/
def calls : ServiceName → List JsString
  | .node => [js "sign", js "verify"]
  | .fs => [js "get", js "put", js "list", js "delete", js "size", js "stat"]
  | .timer => [js "arm", js "clear"]
  | .link => [js "open", js "send", js "pause", js "close", js "deliver", js "status",
      js "udpBind", js "udpSend", js "udpClose"]
  | .host => [js "stage"]

end ServiceName

/-- `/` -/
def slash : UInt16 := 47

/-- `isService`, with the service it is. -/
def isService (name : JsString) : Option ServiceName :=
  ServiceName.all.find? fun s => decide (s.text = name)

def isHostNamespace (head : JsString) : Bool :=
  decide (head = js "crypto") || (isService head).isSome

/-- What stands before a name's first `/`. -/
def headOf (name : JsString) : JsString := name.takeWhile (· ≠ slash)

def isAlnum (u : UInt16) : Bool :=
  decide (48 ≤ u ∧ u ≤ 57 ∨ 65 ≤ u ∧ u ≤ 90 ∨ 97 ≤ u ∧ u ≤ 122)

/-- `NAME_RE` -/
def nameRe : JsString → Bool
  | [] => false
  | u :: rest => isAlnum u && rest.all fun u => isAlnum u || decide (u = 95 ∨ u = 45)

/-- `CLAIM_RE` -/
def claimRe : JsString → Bool
  | [] => false
  | u :: rest => (isAlnum u || decide (u = 95)) && decide (rest.length ≤ 63) &&
      rest.all fun u => isAlnum u || decide (u = 46 ∨ u = 95 ∨ u = slash ∨ u = 45)

/-- `UNSAFE_LABEL` finds one of its characters. -/
def unsafeLabel (label : JsString) : Bool :=
  label.any fun u => decide (u ≤ 0x1f ∨ 0x7f ≤ u ∧ u ≤ 0x9f ∨ 0x200b ≤ u ∧ u ≤ 0x200f ∨
    0x2028 ≤ u ∧ u ≤ 0x202e ∨ 0x2060 ≤ u ∧ u ≤ 0x206f ∨ u = 0xfeff)

def DEFAULT_MAX_BUNDLE_MODULES : Nat := 256

/-- What an accepted manifest says: its modules by name, its guest's `requires` and `config`. -/
structure BundleManifest where
  app : JsString
  version : Nat
  protocols : Option (List JsString)
  services : Option (List JsString)
  modules : List JsString
  requires : List JsString
  config : Option Json

/-- The loop over a list of names: each a string that `re` takes, none twice. -/
def uniqueNames (re : JsString → Bool) (seen : List JsString) :
    List (Option JsString) → Option (List JsString)
  | [] => some seen
  | none :: _ => none
  | some p :: rest =>
    if re p = false ∨ p ∈ seen then none else uniqueNames re (seen ++ [p]) rest

/-- `protocols` or `services`, which may be left out. -/
def claimList : Option Json → Option (Option (List JsString))
  | none => some none
  | some (.arr items) => (uniqueNames claimRe [] (items.map Json.str?)).map some
  | some _ => none

def isValidLabel (app : JsString) : Bool :=
  !app.isEmpty && isWellFormed app && decide ((Utf.utf8Encode app).length ≤ 255) && !unsafeLabel app

def isValidManifest (o : Json) : Option BundleManifest := do
  guard o.isRecord
  let app ← (o.field (js "app")).bind Json.str?
  guard (isValidLabel app)
  let version ← (o.field (js "version")).bind Json.safeNat?
  let protocols ← claimList (o.field (js "protocols"))
  let services ← claimList (o.field (js "services"))
  let items ← (o.field (js "modules")).bind Json.arr?
  guard (items.length ≤ DEFAULT_MAX_BUNDLE_MODULES)
  let modules ← uniqueNames nameRe []
    (items.map fun item => (item.field (js "name")).bind Json.str?)
  let guest ← o.field (js "guest")
  guard guest.isRecord
  let requires ← ((guest.field (js "requires")).bind Json.arr?).bind fun rs => rs.mapM Json.str?
  let config := guest.field (js "config")
  guard (config.all Json.isRecord)
  pure ⟨app, version, protocols, services, modules, requires, config⟩

/-- Why a manifest is refused; the last three name an entry of `guest.requires`. -/
inductive ManifestError where
  | malformed
  | hostMethod (r : JsString)
  | illFormed (r : JsString)
  | alsoModule (r : JsString)
  deriving DecidableEq

/-- What is wrong with an entry of `guest.requires`. -/
def requireError (moduleNames : List JsString) (r : JsString) : Option ManifestError :=
  if (isService r).isSome then none
  else if isHostNamespace (headOf r) then some (.hostMethod r)
  else if claimRe r = false then some (.illFormed r)
  else if r ∈ moduleNames then some (.alsoModule r)
  else none

def validateManifest (o : Json) : Except ManifestError BundleManifest :=
  match isValidManifest o with
  | none => .error .malformed
  | some m =>
    match m.requires.findSome? (requireError m.modules) with
    | some e => .error e
    | none => .ok m

/-! What an accepted manifest satisfies. -/

theorem uniqueNames_spec {re : JsString → Bool} {seen names : List JsString}
    {items : List (Option JsString)} (h : uniqueNames re seen items = some names) :
    ∃ ps, names = seen ++ ps ∧ items = ps.map some ∧ (∀ p ∈ ps, re p = true) ∧
      (seen.Nodup → names.Nodup) := by
  induction items generalizing seen with
  | nil =>
    cases h
    exact ⟨[], by simp, rfl, by simp, id⟩
  | cons item items ih =>
    cases item with
    | none => cases h
    | some p =>
      simp only [uniqueNames] at h
      split at h
      · cases h
      · next hp =>
        rw [not_or, Bool.not_eq_false] at hp
        obtain ⟨ps, hnames, hitems, hre, hnodup⟩ := ih h
        refine ⟨p :: ps, by simp [hnames], by simp [hitems], ?_, fun hseen => hnodup ?_⟩
        · intro q hq
          obtain rfl | hq := List.mem_cons.1 hq
          · exact hp.1
          · exact hre q hq
        · rw [List.nodup_append]
          refine ⟨hseen, List.nodup_singleton p, fun a ha b hb hab => hp.2 ?_⟩
          rwa [hab, List.mem_singleton.1 hb] at ha

/-- What the checks say of the names a guest may call. -/
structure BundleManifest.Accepted (m : BundleManifest) : Prop where
  modules : m.modules.Nodup
  name : ∀ p ∈ m.modules, nameRe p = true
  require : ∀ r ∈ m.requires, isService r = none →
    isHostNamespace (headOf r) = false ∧ claimRe r = true ∧ r ∉ m.modules

theorem isValidManifest_modules {o : Json} {m : BundleManifest} (h : isValidManifest o = some m) :
    m.modules.Nodup ∧ ∀ p ∈ m.modules, nameRe p = true := by
  simp only [isValidManifest, Option.bind_eq_bind, Option.bind_eq_some_iff, Option.pure_def,
    Option.some.injEq] at h
  obtain ⟨-, -, app, -, -, -, version, -, protocols, -, services, -, items, -, -, -, modules,
    hmodules, -, -, -, -, -, -, -, -, rfl⟩ := h
  obtain ⟨ps, hps, -, hre, hnodup⟩ := uniqueNames_spec hmodules
  rw [List.nil_append] at hps
  subst hps
  exact ⟨hnodup List.nodup_nil, hre⟩

theorem validateManifest_ok {o : Json} {m : BundleManifest} (h : validateManifest o = .ok m) :
    isValidManifest o = some m ∧ ∀ r ∈ m.requires, requireError m.modules r = none := by
  unfold validateManifest at h
  split at h
  · cases h
  · next m' hm =>
    split at h
    · cases h
    · next hnone =>
      cases h
      exact ⟨hm, List.findSome?_eq_none_iff.1 hnone⟩

theorem validateManifest_accepted {o : Json} {m : BundleManifest}
    (h : validateManifest o = .ok m) : m.Accepted := by
  obtain ⟨hvalid, hrequires⟩ := validateManifest_ok h
  obtain ⟨hnodup, hre⟩ := isValidManifest_modules hvalid
  refine ⟨hnodup, hre, fun r hr hs => ?_⟩
  have hnone := hrequires r hr
  simp only [requireError, hs, Option.isSome_none, Bool.false_eq_true, if_false] at hnone
  split_ifs at hnone with h1 h2 h3
  exact ⟨by simpa using h1, by simpa using h2, h3⟩

end Bundle

end SeedTransport
