import SeedTransport.Lib.OrdMap
import SeedTransport.Host.Manifest

set_option autoImplicit false

namespace SeedTransport

namespace Bundle

open Utf

/-! The names a guest reaches by `host.call` (`host/guest-seam.ts`), and which handler answers
each. -/

/-- Which handler a route is. -/
inductive SeamHandler where
  | transform (name : JsString)
  | method (service : ServiceName) (call : JsString)
  | callLocal (id : JsString)
  | module (name : JsString)
  deriving DecidableEq

namespace GuestSeam

/-- `HOST_TRANSFORM_NAMES` -/
def HOST_TRANSFORM_NAMES : List JsString :=
  [js "blake2b", js "chacha20poly1305-ietf/seal", js "chacha20poly1305-ietf/open",
    js "x25519/dh", js "random"]

def crypto : JsString := js "crypto"

/-- `head/call` -/
def path (head call : JsString) : JsString := head ++ slash :: call

/-- One service's handlers: a record of exactly its calls, in an order of its own. -/
structure ServiceHandlers (s : ServiceName) where
  calls : List JsString
  exact : calls.Perm s.calls

def ServiceHandlers.entries {s : ServiceName} (h : ServiceHandlers s) :
    List (JsString × SeamHandler) :=
  h.calls.map fun c => (path s.text c, .method s c)

/-- `hostTransforms` -/
def hostTransforms : List (JsString × SeamHandler) :=
  HOST_TRANSFORM_NAMES.map fun t => (path crypto t, .transform t)

/-- The services a node offers one slot. -/
abbrev SeamServices := (s : ServiceName) → Option (ServiceHandlers s)

def addHost (routes : OrdMap JsString SeamHandler) (handlers : List (JsString × SeamHandler)) :
    OrdMap JsString SeamHandler :=
  handlers.foldl (fun routes e => routes.set e.1 e.2) routes

/-- The values of `new Set(items)`, in its order. -/
def newSet (items : List JsString) : List JsString :=
  items.foldl (fun seen a => if seen.contains a then seen else seen ++ [a]) []

/-- The loop over what the bundle requires; a service the node does not offer throws. -/
def addRequired (services : SeamServices) (routes : OrdMap JsString SeamHandler) :
    List JsString → Except ServiceName (OrdMap JsString SeamHandler)
  | [] => .ok routes
  | id :: ids =>
    match isService id with
    | some s =>
      match services s with
      | none => .error s
      | some handlers => addRequired services (addHost routes handlers.entries) ids
    | none => addRequired services (routes.set id (.callLocal id)) ids

/-- The routes `createGuestSeam` wires. -/
def createGuestSeam (requires : List JsString) (services : SeamServices)
    (modules : List JsString) : Except ServiceName (OrdMap JsString SeamHandler) := do
  let routes ← addRequired services (addHost .empty hostTransforms) (newSet requires)
  pure (addHost routes (modules.map fun name => (name, .module name)))

/-- What `host.call` runs, none where it throws. -/
def seam (routes : OrdMap JsString SeamHandler) (name : JsString) : Option SeamHandler :=
  routes.get name

/-! What a manifest declares. -/

/-- The handler a name is declared to have. -/
@[mk_iff]
inductive Declares (m : BundleManifest) : JsString → SeamHandler → Prop where
  | transform {t : JsString} (ht : t ∈ HOST_TRANSFORM_NAMES) :
      Declares m (path crypto t) (.transform t)
  | method {s : ServiceName} {c : JsString} (hs : s.text ∈ m.requires) (hc : c ∈ s.calls) :
      Declares m (path s.text c) (.method s c)
  | callLocal {id : JsString} (hid : id ∈ m.requires) (hs : isService id = none) :
      Declares m id (.callLocal id)
  | module {name : JsString} (hname : name ∈ m.modules) : Declares m name (.module name)

def cryptoNames : Set JsString := {n | ∃ t ∈ HOST_TRANSFORM_NAMES, n = path crypto t}

def methodNames (m : BundleManifest) : Set JsString :=
  {n | ∃ s : ServiceName, s.text ∈ m.requires ∧ ∃ c ∈ s.calls, n = path s.text c}

def localIds (m : BundleManifest) : Set JsString := {n | n ∈ m.requires ∧ isService n = none}

def moduleNames (m : BundleManifest) : Set JsString := {n | n ∈ m.modules}

/-! A name says by its first `/` which of them it may be. -/

theorem headOf_path {head : JsString} (h : slash ∉ head) (call : JsString) :
    headOf (path head call) = head := by
  have hall : ∀ u ∈ head, (decide (u ≠ slash)) = true := by
    intro u hu
    simp only [ne_eq, decide_not, Bool.not_eq_true', decide_eq_false_iff_not]
    rintro rfl
    exact h hu
  rw [headOf, path, List.takeWhile_append_of_pos hall]
  simp

theorem slash_mem_path (head call : JsString) : slash ∈ path head call := by
  simp [path]

theorem text_no_slash (s : ServiceName) : slash ∉ s.text := by
  cases s <;> decide

theorem crypto_no_slash : slash ∉ crypto := by decide

theorem isService_text (s : ServiceName) : isService s.text = some s := by
  cases s <;> decide

theorem isService_some {name : JsString} {s : ServiceName} (h : isService name = some s) :
    name = s.text := by
  have hs := List.find?_some h
  exact (of_decide_eq_true hs).symm

theorem text_inj {s s' : ServiceName} (h : s.text = s'.text) : s = s' := by
  have hs := isService_text s
  rw [h, isService_text] at hs
  exact (Option.some.inj hs).symm

theorem text_ne_crypto (s : ServiceName) : s.text ≠ crypto := by
  cases s <;> decide

theorem text_host (s : ServiceName) : isHostNamespace s.text = true := by
  simp [isHostNamespace, isService_text]

theorem crypto_host : isHostNamespace crypto = true := by decide

theorem name_no_slash {name : JsString} (h : nameRe name = true) : slash ∉ name := by
  cases name with
  | nil => cases h
  | cons u rest =>
    simp only [nameRe, Bool.and_eq_true, List.all_eq_true] at h
    have hfalse : (isAlnum slash || decide (slash = 95 ∨ slash = 45)) = false := by decide
    intro hmem
    obtain rfl | hmem := List.mem_cons.1 hmem
    · have hfirst : isAlnum slash = false := by decide
      rw [hfirst] at h
      exact absurd h.1 Bool.false_ne_true
    · have hrest := h.2 slash hmem
      rw [hfalse] at hrest
      cases hrest

theorem path_inj {head head' call call' : JsString} (h : slash ∉ head) (h' : slash ∉ head')
    (he : path head call = path head' call') : head = head' ∧ call = call' := by
  have hhead : head = head' := by
    rw [← headOf_path h call, he, headOf_path h']
  subst hhead
  simpa [path] using he

/-- An accepted manifest declares one handler for a name at most. -/
theorem Declares.unique {m : BundleManifest} (ha : m.Accepted) {n : JsString}
    {h h' : SeamHandler} (hn : Declares m n h) (hn' : Declares m n h') : h = h' := by
  have hlocal : ∀ {head call : JsString}, isHostNamespace head = true → slash ∉ head →
      path head call ∈ m.requires → isService (path head call) = none → False := by
    intro head call hhost hno hmem hnone
    have hoff := (ha.require _ hmem hnone).1
    rw [headOf_path hno, hhost] at hoff
    cases hoff
  have hmodule : ∀ {head call : JsString}, path head call ∈ m.modules → False := fun hmem =>
    name_no_slash (ha.name _ hmem) (slash_mem_path _ _)
  rw [declares_iff] at hn hn'
  obtain ⟨t, -, rfl, rfl⟩ | ⟨s, c, -, -, rfl, rfl⟩ | ⟨hid, hs, rfl⟩ | ⟨hname, rfl⟩ := hn
  · obtain ⟨t', -, he, rfl⟩ | ⟨s, c, -, -, he, rfl⟩ | ⟨hid, hs, rfl⟩ | ⟨hname, rfl⟩ := hn'
    · rw [(path_inj crypto_no_slash crypto_no_slash he).2]
    · exact absurd (path_inj crypto_no_slash (text_no_slash s) he).1.symm (text_ne_crypto s)
    · exact (hlocal crypto_host crypto_no_slash hid hs).elim
    · exact (hmodule hname).elim
  · obtain ⟨t', -, he, rfl⟩ | ⟨s', c', -, -, he, rfl⟩ | ⟨hid, hs, rfl⟩ | ⟨hname, rfl⟩ := hn'
    · exact absurd (path_inj (text_no_slash s) crypto_no_slash he).1 (text_ne_crypto s)
    · obtain ⟨hss, rfl⟩ := path_inj (text_no_slash s) (text_no_slash s') he
      rw [text_inj hss]
    · exact (hlocal (text_host s) (text_no_slash s) hid hs).elim
    · exact (hmodule hname).elim
  · obtain ⟨t', -, rfl, rfl⟩ | ⟨s', c', -, -, rfl, rfl⟩ | ⟨-, -, rfl⟩ | ⟨hname, rfl⟩ := hn'
    · exact (hlocal crypto_host crypto_no_slash hid hs).elim
    · exact (hlocal (text_host s') (text_no_slash s') hid hs).elim
    · rfl
    · exact absurd hname (ha.require n hid hs).2.2
  · obtain ⟨t', -, rfl, rfl⟩ | ⟨s', c', -, -, rfl, rfl⟩ | ⟨hid, hs, rfl⟩ | ⟨-, rfl⟩ := hn'
    · exact (hmodule hname).elim
    · exact (hmodule hname).elim
    · exact absurd hname (ha.require n hid hs).2.2
    · rfl

/-! What the seam wires. -/

theorem newSet_mem (items : List JsString) (a : JsString) : a ∈ newSet items ↔ a ∈ items := by
  have hfold : ∀ (items seen : List JsString),
      a ∈ items.foldl (fun seen a => if seen.contains a then seen else seen ++ [a]) seen ↔
        a ∈ seen ∨ a ∈ items := by
    intro items
    induction items with
    | nil => simp
    | cons b items ih =>
      intro seen
      rw [List.foldl_cons, ih]
      split
      · next hb =>
        rw [List.mem_cons]
        constructor
        · rintro (ha | ha)
          · exact .inl ha
          · exact .inr (.inr ha)
        · rintro (ha | rfl | ha)
          · exact .inl ha
          · exact .inl (List.contains_iff_mem.mp hb)
          · exact .inr ha
      · rw [List.mem_append, List.mem_singleton, List.mem_cons, or_assoc]
  rw [newSet, hfold items []]
  simp

/-- The entries of one required name. -/
def requiredEntries (services : SeamServices) (id : JsString) : List (JsString × SeamHandler) :=
  match isService id with
  | some s => ((services s).map fun h => h.entries).getD []
  | none => [(id, .callLocal id)]

theorem addHost_append (routes : OrdMap JsString SeamHandler)
    (es es' : List (JsString × SeamHandler)) :
    addHost routes (es ++ es') = addHost (addHost routes es) es' := List.foldl_append

/-- With every required service offered, each required name adds its entries. -/
theorem addRequired_ok {services : SeamServices} (ids : List JsString)
    (hoffered : ∀ s : ServiceName, s.text ∈ ids → (services s).isSome = true)
    (routes : OrdMap JsString SeamHandler) :
    addRequired services routes ids =
      .ok (addHost routes (ids.flatMap (requiredEntries services))) := by
  induction ids generalizing routes with
  | nil => rfl
  | cons id ids ih =>
    have hrest : ∀ s : ServiceName, s.text ∈ ids → (services s).isSome = true :=
      fun s hs => hoffered s (List.mem_cons_of_mem _ hs)
    rw [List.flatMap_cons, addHost_append]
    cases hs : isService id with
    | none =>
      simp only [addRequired, hs, requiredEntries]
      exact ih hrest _
    | some s =>
      have hin : s.text ∈ id :: ids := by
        rw [isService_some hs]
        exact List.mem_cons_self
      obtain ⟨handlers, hh⟩ := Option.isSome_iff_exists.1 (hoffered s hin)
      simp only [addRequired, hs, hh, requiredEntries, Option.map_some, Option.getD_some]
      exact ih hrest _

theorem mem_requiredEntries {services : SeamServices} {m : BundleManifest}
    (hoffered : ∀ s : ServiceName, s.text ∈ m.requires → (services s).isSome = true)
    (e : JsString × SeamHandler) :
    (∃ id ∈ m.requires, e ∈ requiredEntries services id) ↔
      (∃ s : ServiceName, s.text ∈ m.requires ∧ ∃ c ∈ s.calls, e = (path s.text c, .method s c)) ∨
        ∃ id ∈ m.requires, isService id = none ∧ e = (id, .callLocal id) := by
  constructor
  · rintro ⟨id, hid, he⟩
    cases hs : isService id with
    | none =>
      simp only [requiredEntries, hs, List.mem_singleton] at he
      exact .inr ⟨id, hid, hs, he⟩
    | some s =>
      have htext := isService_some hs
      subst htext
      obtain ⟨handlers, hh⟩ := Option.isSome_iff_exists.1 (hoffered s hid)
      simp only [requiredEntries, hs, hh, Option.map_some, Option.getD_some,
        ServiceHandlers.entries, List.mem_map] at he
      obtain ⟨c, hc, rfl⟩ := he
      exact .inl ⟨s, hid, c, handlers.exact.mem_iff.1 hc, rfl⟩
  · rintro (⟨s, hs, c, hc, rfl⟩ | ⟨id, hid, hs, rfl⟩)
    · obtain ⟨handlers, hh⟩ := Option.isSome_iff_exists.1 (hoffered s hs)
      refine ⟨s.text, hs, ?_⟩
      simp only [requiredEntries, isService_text, hh, Option.map_some, Option.getD_some,
        ServiceHandlers.entries, List.mem_map]
      exact ⟨c, handlers.exact.mem_iff.2 hc, rfl⟩
    · exact ⟨id, hid, by simp [requiredEntries, hs]⟩

/-- All the entries the seam wires, in its order. -/
def wired (m : BundleManifest) (services : SeamServices) : List (JsString × SeamHandler) :=
  hostTransforms ++ (newSet m.requires).flatMap (requiredEntries services) ++
    m.modules.map fun name => (name, .module name)

theorem createGuestSeam_ok {m : BundleManifest} {services : SeamServices}
    (hoffered : ∀ s : ServiceName, s.text ∈ m.requires → (services s).isSome = true) :
    createGuestSeam m.requires services m.modules = .ok (addHost .empty (wired m services)) := by
  have hset : ∀ s : ServiceName, s.text ∈ newSet m.requires → (services s).isSome = true :=
    fun s hs => hoffered s ((newSet_mem _ _).1 hs)
  simp only [createGuestSeam, addRequired_ok _ hset, wired, addHost_append]
  rfl

/-- They are what the manifest declares. -/
theorem mem_wired {m : BundleManifest} {services : SeamServices}
    (hoffered : ∀ s : ServiceName, s.text ∈ m.requires → (services s).isSome = true)
    (e : JsString × SeamHandler) : e ∈ wired m services ↔ Declares m e.1 e.2 := by
  have hreq := mem_requiredEntries hoffered e
  obtain ⟨n, h⟩ := e
  simp only [wired, hostTransforms, List.mem_append, List.mem_map, List.mem_flatMap, newSet_mem,
    declares_iff, Prod.mk.injEq] at hreq ⊢
  rw [hreq]
  constructor
  · rintro ((⟨t, ht, rfl, rfl⟩ | ⟨s, hs, c, hc, rfl, rfl⟩ | ⟨id, hid, hs, rfl, rfl⟩) |
      ⟨name, hname, rfl, rfl⟩)
    · exact .inl ⟨t, ht, rfl, rfl⟩
    · exact .inr (.inl ⟨s, c, hs, hc, rfl, rfl⟩)
    · exact .inr (.inr (.inl ⟨hid, hs, rfl⟩))
    · exact .inr (.inr (.inr ⟨hname, rfl⟩))
  · rintro (⟨t, ht, rfl, rfl⟩ | ⟨s, c, hs, hc, rfl, rfl⟩ | ⟨hid, hs, rfl⟩ | ⟨hname, rfl⟩)
    · exact .inl (.inl ⟨t, ht, rfl, rfl⟩)
    · exact .inl (.inr (.inl ⟨s, hs, c, hc, rfl, rfl⟩))
    · exact .inl (.inr (.inr ⟨n, hid, hs, rfl, rfl⟩))
    · exact .inr ⟨n, hname, rfl, rfl⟩

/-- Entries that agree on their names: the order they are set in does not matter, nor how often. -/
theorem get_addHost {es : List (JsString × SeamHandler)}
    (hagree : ∀ e ∈ es, ∀ e' ∈ es, e.1 = e'.1 → e = e') (routes : OrdMap JsString SeamHandler)
    (n : JsString) (h : SeamHandler) :
    (addHost routes es).get n = some h ↔
      (n, h) ∈ es ∨ n ∉ es.map Prod.fst ∧ routes.get n = some h := by
  induction es generalizing routes with
  | nil => simp [addHost]
  | cons e es ih =>
    have hrest : ∀ e' ∈ es, ∀ e'' ∈ es, e'.1 = e''.1 → e' = e'' := fun e' he' e'' he'' =>
      hagree e' (List.mem_cons_of_mem _ he') e'' (List.mem_cons_of_mem _ he'')
    change (addHost (routes.set e.1 e.2) es).get n = some h ↔ _
    rw [ih hrest, OrdMap.get_set]
    by_cases hn : n = e.1
    · subst hn
      constructor
      · rintro (hmem | ⟨-, heq⟩)
        · exact .inl (List.mem_cons_of_mem _ hmem)
        · rw [if_pos rfl] at heq
          exact .inl (List.mem_cons.2 (.inl (by rw [← Option.some.inj heq])))
      · rintro (hmem | ⟨hnot, -⟩)
        · have he := hagree _ hmem e List.mem_cons_self rfl
          by_cases hin : e.1 ∈ es.map Prod.fst
          · obtain ⟨e', he', hfst⟩ := List.mem_map.1 hin
            have hee := hagree e' (List.mem_cons_of_mem _ he') e List.mem_cons_self hfst
            rw [he, ← hee]
            exact .inl he'
          · exact .inr ⟨hin, by rw [if_pos rfl, ← he]⟩
        · exact absurd List.mem_cons_self hnot
    · have hne : ∀ h', (n, h') ≠ e := fun h' he => hn (by rw [← he])
      simp only [List.mem_cons, List.map_cons, hne, false_or, hn]
      simp

theorem get_wired {m : BundleManifest} (ha : m.Accepted) {es : List (JsString × SeamHandler)}
    (hes : ∀ e, e ∈ es ↔ Declares m e.1 e.2) (n : JsString) (h : SeamHandler) :
    seam (addHost .empty es) n = some h ↔ Declares m n h := by
  have hagree : ∀ e ∈ es, ∀ e' ∈ es, e.1 = e'.1 → e = e' := by
    intro e he e' he' hn
    have hd := (hes e').1 he'
    rw [← hn] at hd
    exact Prod.ext hn (Declares.unique ha ((hes e).1 he) hd)
  rw [seam, get_addHost hagree, hes]
  simp

/-- What the seam of an accepted manifest reaches. -/
structure Reach (m : BundleManifest) (routes : OrdMap JsString SeamHandler) : Prop where
  declared : ∀ n h, seam routes n = some h ↔ Declares m n h
  names : {n | (seam routes n).isSome = true} =
    cryptoNames ∪ methodNames m ∪ localIds m ∪ moduleNames m
  disjoint : [cryptoNames, methodNames m, localIds m, moduleNames m].Pairwise Disjoint
  anyOrder : ∀ es : List (JsString × SeamHandler), (∀ e, e ∈ es ↔ Declares m e.1 e.2) →
    ∀ n, seam (addHost .empty es) n = seam routes n
  undeclared : ∀ (s : ServiceName), s.text ∉ m.requires → ∀ c ∈ s.calls,
    seam routes (path s.text c) = none

theorem names_disjoint {m : BundleManifest} (ha : m.Accepted) :
    [cryptoNames, methodNames m, localIds m, moduleNames m].Pairwise Disjoint := by
  have happart : ∀ {A B : Set JsString}, (∀ n ∈ A, n ∈ B → False) → Disjoint A B :=
    fun h => Set.disjoint_left.2 h
  simp only [List.pairwise_cons, List.mem_cons, List.not_mem_nil, or_false, forall_eq_or_imp,
    forall_eq]
  refine ⟨⟨happart ?_, happart ?_, happart ?_⟩, ⟨happart ?_, happart ?_⟩, happart ?_, by simp⟩
  · rintro n ⟨t, ht, rfl⟩ ⟨s, hs, c, hc, he⟩
    have hd : Declares m (path crypto t) (.method s c) := he ▸ .method hs hc
    cases Declares.unique ha (.transform ht) hd
  · rintro n ⟨t, ht, rfl⟩ ⟨hid, hs⟩
    cases Declares.unique ha (.transform ht) (.callLocal hid hs)
  · rintro n ⟨t, ht, rfl⟩ hname
    cases Declares.unique ha (.transform ht) (.module hname)
  · rintro n ⟨s, hs, c, hc, rfl⟩ ⟨hid, hnone⟩
    cases Declares.unique ha (.method hs hc) (.callLocal hid hnone)
  · rintro n ⟨s, hs, c, hc, rfl⟩ hname
    cases Declares.unique ha (.method hs hc) (.module hname)
  · rintro n ⟨hid, hnone⟩ hname
    cases Declares.unique ha (.callLocal hid hnone) (.module hname)

theorem declared_names (m : BundleManifest) (n : JsString) :
    (∃ h, Declares m n h) ↔
      n ∈ cryptoNames ∪ methodNames m ∪ localIds m ∪ moduleNames m := by
  constructor
  · rintro ⟨h, hd⟩
    cases hd with
    | transform ht => exact .inl (.inl (.inl ⟨_, ht, rfl⟩))
    | method hs hc => exact .inl (.inl (.inr ⟨_, hs, _, hc, rfl⟩))
    | callLocal hid hs => exact .inl (.inr ⟨hid, hs⟩)
    | module hname => exact .inr hname
  · rintro (((⟨t, ht, rfl⟩ | ⟨s, hs, c, hc, rfl⟩) | ⟨hid, hs⟩) | hname)
    · exact ⟨_, .transform ht⟩
    · exact ⟨_, .method hs hc⟩
    · exact ⟨_, .callLocal hid hs⟩
    · exact ⟨_, .module hname⟩

/-- The methods of a service that is not declared answer to nothing. -/
theorem undeclared_method {m : BundleManifest} (ha : m.Accepted) {s : ServiceName}
    (hs : s.text ∉ m.requires) {c : JsString} {h : SeamHandler} :
    ¬ Declares m (path s.text c) h := by
  rw [declares_iff]
  rintro (⟨t, -, he, -⟩ | ⟨s', c', hs', -, he, -⟩ | ⟨hid, hnone, -⟩ | ⟨hname, -⟩)
  · exact text_ne_crypto s (path_inj (text_no_slash s) crypto_no_slash he).1
  · exact hs ((path_inj (text_no_slash s) (text_no_slash s') he).1 ▸ hs')
  · have hoff := (ha.require _ hid hnone).1
    rw [headOf_path (text_no_slash s), text_host] at hoff
    cases hoff
  · exact name_no_slash (ha.name _ hname) (slash_mem_path _ _)

/-- The seam of a manifest that `validateManifest` accepts, on a node that offers what it
requires, routes the names the manifest declares, each to its one handler. -/
theorem seam_reach {o : Json} {m : BundleManifest} (h : validateManifest o = .ok m)
    {services : SeamServices}
    (hoffered : ∀ s : ServiceName, s.text ∈ m.requires → (services s).isSome = true) :
    ∃ routes, createGuestSeam m.requires services m.modules = .ok routes ∧ Reach m routes := by
  have ha := validateManifest_accepted h
  have hdeclared := get_wired ha (mem_wired hoffered)
  refine ⟨_, createGuestSeam_ok hoffered, hdeclared, ?_, names_disjoint ha, ?_, ?_⟩
  · ext n
    rw [← declared_names, Set.mem_ofPred_eq, Option.isSome_iff_exists]
    exact exists_congr fun hd => hdeclared n hd
  · intro es hes n
    ext hd
    rw [get_wired ha hes, hdeclared]
  · intro s hs c _
    rw [Option.eq_none_iff_forall_not_mem]
    intro hd hmem
    exact undeclared_method ha hs ((hdeclared _ _).1 hmem)

/-- An app with a module and a local id, which signs. -/
def notesManifest : Json :=
  .obj [(js "app", .str (js "notes")), (js "version", .num 1),
    (js "modules", .arr [.obj [(js "name", .str (js "codec"))]]),
    (js "guest", .obj [(js "requires", .arr [.str (js "node"), .str (js "_net"), .str (js "node")])])]

def notes : BundleManifest where
  app := js "notes"
  version := 1
  protocols := none
  services := none
  modules := [js "codec"]
  requires := [js "node", js "_net", js "node"]
  config := none

/-- A node that offers every service. -/
def everyService : SeamServices := fun s => some ⟨s.calls, .refl _⟩

theorem notes_reach : ∃ routes,
    createGuestSeam notes.requires everyService notes.modules = .ok routes ∧ Reach notes routes :=
  seam_reach (o := notesManifest) rfl fun _ _ => rfl

end GuestSeam

end Bundle

end SeedTransport
