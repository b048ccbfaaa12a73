import SeedTransport.Host.BundleFormat

set_option autoImplicit false

namespace SeedTransport

namespace Bundle

open Utf

/-! What the format of a bundle promises: what is accepted and what it is read as, that an author's
bundles are, whose bodies an author's keys vouch for, and what the native loader finds in a host blob. -/

/-- JSON and texts as a platform has them: what is written reads back and is well-formed text with
no BOM before it, and a `TextDecoder` drops nothing else. -/
structure Texts.Lawful (t : Texts) : Prop where
  json : ∀ v s, t.stringify v = some s → t.parse s = some v
  wellFormed : ∀ v s, t.stringify v = some s → isWellFormed s = true ∧ s.head? ≠ some 0xfeff
  decode : ∀ s, isWellFormed s = true → s.head? ≠ some 0xfeff → t.decode (Utf.utf8Encode s) = s

/-- Signatures of an author's keys: as wide as the format has them, and good for what was signed. -/
structure Correct (c : ManifestCrypto) (keys : HybridAuthorKeys) : Prop where
  edKey : keys.ed.publicKey.length = 32
  mlKey : keys.mlDsa.publicKey.length = 1952
  edSig : ∀ m, (c.edSign m keys.ed.privateKey).length = 64
  mlSig : ∀ m, (c.mlSign m keys.mlDsa.privateKey).length = 3309
  edGood : ∀ m, c.edVerify (c.edSign m keys.ed.privateKey) m keys.ed.publicKey = true
  mlGood : ∀ m, c.mlVerify (c.mlSign m keys.mlDsa.privateKey) m keys.mlDsa.publicKey = true

/-! ### Envelopes -/

/-- The widths of an envelope's parts. -/
structure EnvelopeHead.Wide (h : EnvelopeHead) : Prop where
  edPk : h.edPk.length = 32
  mlPk : h.mlPk.length = 1952
  edSig : h.edSig.length = 64
  mlSig : h.mlSig.length = 3309

/-- The bytes of an envelope. -/
def envelope (h : EnvelopeHead) (body : Bytes) : Bytes :=
  SUITE :: (h.edPk ++ h.mlPk ++ h.edSig ++ h.mlSig ++ body)

/-- Both of an envelope's signatures are good. -/
def Signed (c : ManifestCrypto) (domain : Bytes) (h : EnvelopeHead) (body : Bytes) : Prop :=
  c.edVerify h.edSig (envelopeSigningInput c domain h.edPk h.mlPk body) h.edPk = true ∧
    c.mlVerify h.mlSig (envelopeSigningInput c domain h.edPk h.mlPk body) h.mlPk = true

theorem subarray_part {a x rest : Bytes} {i j : Nat} (hi : a.length = i) (hj : i + x.length = j) :
    subarray (a ++ (x ++ rest)) i j = x := by
  subst hi hj
  rw [subarray, ← List.append_assoc, ← List.length_append, List.take_left, List.drop_left]

theorem subarray_drop (b : Bytes) {i j : Nat} (h : i ≤ j) : subarray b i j ++ b.drop j = b.drop i := by
  rw [subarray, List.drop_take, ← Nat.add_sub_cancel' h, ← List.drop_drop, Nat.add_sub_cancel_left,
    List.take_append_drop]

theorem subarray_length {b : Bytes} {i j : Nat} (h : j ≤ b.length) : (subarray b i j).length = j - i := by
  rw [subarray, List.length_drop, List.length_take, Nat.min_eq_left h]

theorem offsets : OFF_ED_PK ≤ OFF_ML_PK ∧ OFF_ML_PK ≤ OFF_ED_SIG ∧ OFF_ED_SIG ≤ OFF_ML_SIG ∧ OFF_ML_SIG ≤ OFF_BODY :=
  ⟨Nat.le_add_right _ _, Nat.le_add_right _ _, Nat.le_add_right _ _, Nat.le_add_right _ _⟩

theorem envelopeHead_wide {env : Bytes} (h : OFF_BODY ≤ env.length) : (envelopeHead env).Wide := by
  obtain ⟨-, hk, he, hm⟩ := offsets
  exact {
    edPk := (subarray_length (by omega)).trans (Nat.add_sub_cancel_left _ _)
    mlPk := (subarray_length (by omega)).trans (Nat.add_sub_cancel_left _ _)
    edSig := (subarray_length (by omega)).trans (Nat.add_sub_cancel_left _ _)
    mlSig := (subarray_length h).trans (Nat.add_sub_cancel_left _ _) }

theorem envelopeHead_envelope {h : EnvelopeHead} (hw : h.Wide) (body : Bytes) :
    envelopeHead (envelope h body) = h := by
  obtain ⟨edPk, mlPk, edSig, mlSig⟩ := h
  obtain ⟨he, hm, hes, hms⟩ := hw
  dsimp only at he hm hes hms
  have h1 : envelope ⟨edPk, mlPk, edSig, mlSig⟩ body = [SUITE] ++ (edPk ++ (mlPk ++ (edSig ++ (mlSig ++ body)))) := by
    simp only [envelope, List.append_assoc, List.singleton_append]
  have h2 := h1.trans (List.append_assoc _ _ _).symm
  have h3 := h2.trans (List.append_assoc _ _ _).symm
  have h4 := h3.trans (List.append_assoc _ _ _).symm
  have hl1 : ([SUITE] : Bytes).length = OFF_ED_PK := rfl
  have hl2 : ([SUITE] ++ edPk).length = OFF_ML_PK := by rw [List.length_append, hl1, he]; rfl
  have hl3 : ([SUITE] ++ edPk ++ mlPk).length = OFF_ED_SIG := by rw [List.length_append, hl2, hm]; rfl
  have hl4 : ([SUITE] ++ edPk ++ mlPk ++ edSig).length = OFF_ML_SIG := by rw [List.length_append, hl3, hes]; rfl
  rw [envelopeHead]
  congr 1
  · rw [h1]
    exact subarray_part hl1 (by rw [he]; rfl)
  · rw [h2]
    exact subarray_part hl2 (by rw [hm]; rfl)
  · rw [h3]
    exact subarray_part hl3 (by rw [hes]; rfl)
  · rw [h4]
    exact subarray_part hl4 (by rw [hms]; rfl)

theorem envelope_split {h : EnvelopeHead} (hw : h.Wide) (body : Bytes) :
    ¬ (envelope h body).length < OFF_BODY ∧ (envelope h body).drop OFF_BODY = body := by
  have hfront : (SUITE :: (h.edPk ++ h.mlPk ++ h.edSig ++ h.mlSig)).length = OFF_BODY := by
    simp only [List.length_cons, List.length_append, hw.edPk, hw.mlPk, hw.edSig, hw.mlSig]
    rfl
  have hsplit : envelope h body = (SUITE :: (h.edPk ++ h.mlPk ++ h.edSig ++ h.mlSig)) ++ body := rfl
  rw [hsplit]
  constructor
  · rw [List.length_append, hfront]
    omega
  · rw [← hfront, List.drop_left]

/-- An envelope's body is read for one reason: it stands after the suite and parts of their widths. -/
theorem envelopeBody_ok (env body : Bytes) :
    envelopeBody env = .ok body ↔ (envelopeHead env).Wide ∧ env = envelope (envelopeHead env) body := by
  constructor
  · intro h
    unfold envelopeBody at h
    split at h
    · cases h
    · next suite rest =>
      split at h
      · cases h
      · next hsuite =>
        split at h
        · cases h
        · next hlen =>
          have hwide := envelopeHead_wide (Nat.le_of_not_lt hlen)
          injection h with hbody
          refine ⟨hwide, ?_⟩
          rw [← hbody, envelope, envelopeHead]
          simp only [List.append_assoc]
          obtain ⟨h1, h2, h3, h4⟩ := offsets
          rw [subarray_drop _ h4, subarray_drop _ h3, subarray_drop _ h2, subarray_drop _ h1]
          rw [of_not_not hsuite, OFF_ED_PK, List.drop_succ_cons, List.drop_zero]
  · rintro ⟨hw, henv⟩
    generalize envelopeHead env = h at hw henv
    obtain ⟨hlen, hdrop⟩ := envelope_split hw body
    rw [henv]
    rw [envelope] at hlen hdrop ⊢
    rw [envelopeBody]
    simp only [ne_eq, not_true, if_false, hlen, hdrop]

theorem verifyEnvelope_ok (c : ManifestCrypto) (env domain : Bytes) (v : VerifiedEnvelope) :
    verifyEnvelope c env domain = .ok v ↔ ∃ h : EnvelopeHead, h.Wide ∧ env = envelope h v.body ∧
      Signed c domain h v.body ∧ v.edPk = h.edPk ∧ v.mlPk = h.mlPk ∧ v.author = hybridAuthorId c h.edPk h.mlPk := by
  constructor
  · intro h
    unfold verifyEnvelope at h
    split at h
    · cases h
    · next body hbody =>
      dsimp only at h
      split at h
      · cases h
      · next hed =>
        split at h
        · cases h
        · next hml =>
          cases h
          obtain ⟨hwide, henv⟩ := (envelopeBody_ok env body).mp hbody
          exact ⟨envelopeHead env, hwide, henv, ⟨Bool.eq_true_of_not_eq_false hed, Bool.eq_true_of_not_eq_false hml⟩,
            rfl, rfl, rfl⟩
  · rintro ⟨h, hwide, rfl, ⟨hed, hml⟩, hepk, hmpk, hauthor⟩
    obtain ⟨author, edPk, mlPk, body⟩ := v
    dsimp only at hed hml hepk hmpk hauthor ⊢
    have hhead := envelopeHead_envelope hwide body
    have hbody := (envelopeBody_ok (envelope h body) body).mpr (by rw [hhead]; exact ⟨hwide, rfl⟩)
    subst hepk hmpk hauthor
    simp only [verifyEnvelope, hbody, hhead, hed, hml, Bool.true_eq_false, if_false]

/-! ### Bundles -/

/-- A body read as a manifest, a guest and modules. -/
structure BundleBody.Of (t : Texts) (b : BundleBody) (json guest : Bytes) (wasms : List Bytes) : Prop where
  short : ∀ p ∈ json :: guest :: wasms, p.length < 2 ^ 32
  manifest : t.parse (t.decode json) = some b.manifest
  view : validateManifest b.manifest = .ok b.view
  count : wasms.length = b.view.modules.length
  guestSource : b.guestSource = t.decode guest
  modules : b.modules = b.view.modules.zip wasms

theorem encodeParts_cons (p : Bytes) (ps : List Bytes) : encodeParts (p :: ps) = blob p ++ encodeParts ps := by
  simp [encodeParts]

theorem isValidManifest_guest {o : Json} {m : BundleManifest} (h : isValidManifest o = some m) :
    (o.field (js "guest")).isNone = false := by
  simp only [isValidManifest, Option.bind_eq_bind, Option.bind_eq_some_iff, Option.pure_def, Option.some.injEq] at h
  obtain ⟨-, -, -, -, -, -, -, -, -, -, -, -, -, -, -, -, -, -, guest, hguest, -⟩ := h
  rw [hguest]
  rfl

theorem parseBundleBody_parts {t : Texts} {body rest rest' json guest : Bytes} {wasms : List Bytes} {b : BundleBody}
    (hb : b.Of t json guest wasms) (hjson : nextPart body = some (json, rest))
    (hguest : nextPart rest = some (guest, rest'))
    (hwasms : nextParts wasms.length rest' = some (wasms, [])) : parseBundleBody t body = .ok b := by
  have hhas := isValidManifest_guest (validateManifest_ok hb.view).1
  have hno : ¬ (b.manifest.isRecord = true ∧ (b.manifest.field (js "guest")).isNone = true) := by
    rintro ⟨-, hnone⟩
    rw [hnone] at hhas
    cases hhas
  rw [hb.count] at hwasms
  unfold parseBundleBody
  simp only [hjson, hb.manifest, hno, if_false, hb.view, hguest, hwasms, if_true]
  rw [← hb.guestSource, ← hb.modules]

theorem parseBundleBody_refused {t : Texts} {body rest json : Bytes} {manifest : Json} {e : ManifestError}
    (hjson : nextPart body = some (json, rest)) (hparse : t.parse (t.decode json) = some manifest)
    (hguest : ¬ (manifest.isRecord = true ∧ (manifest.field (js "guest")).isNone = true))
    (he : validateManifest manifest = .error e) : parseBundleBody t body = .error (.manifest e) := by
  unfold parseBundleBody
  simp only [hjson, hparse, hguest, if_false, he]

/-- A body is accepted for one reason: it is the framed manifest, guest and modules, and no more. -/
theorem parseBundleBody_ok (t : Texts) (body : Bytes) (b : BundleBody) :
    parseBundleBody t body = .ok b ↔
      ∃ json guest wasms, body = encodeParts (json :: guest :: wasms) ∧ b.Of t json guest wasms := by
  constructor
  · intro h
    unfold parseBundleBody at h
    split at h
    · cases h
    · next json rest hjson =>
      split at h
      · cases h
      · next parsed hparse =>
        split at h
        · cases h
        · split at h
          · cases h
          · next view hview =>
            split at h
            · cases h
            · next guest rest' hguest =>
              split at h
              · cases h
              · next wasms rest'' hwasms =>
                split at h
                · next hdone =>
                  cases h
                  obtain ⟨hj, rfl⟩ := nextPart_some hjson
                  obtain ⟨hg, rfl⟩ := nextPart_some hguest
                  obtain ⟨hcount, hall, rfl⟩ := (nextParts_iff _ _ _ _).mp hwasms
                  refine ⟨json, guest, wasms, ?_, ?_, hparse, hview, hcount, rfl, rfl⟩
                  · rw [hdone, List.append_nil, encodeParts_cons, encodeParts_cons]
                  · exact List.forall_mem_cons.mpr ⟨hj, List.forall_mem_cons.mpr ⟨hg, hall⟩⟩
                · cases h
  · rintro ⟨json, guest, wasms, rfl, hb⟩
    obtain ⟨hj, hall⟩ := List.forall_mem_cons.mp hb.short
    obtain ⟨hg, hw⟩ := List.forall_mem_cons.mp hall
    have hwasms := (nextParts_iff wasms.length (encodeParts wasms) wasms []).mpr ⟨rfl, hw, (List.append_nil _).symm⟩
    have hjson : nextPart (encodeParts (json :: guest :: wasms)) = some (json, encodeParts (guest :: wasms)) := by
      rw [encodeParts_cons]
      exact nextPart_blob hj _
    have hguest : nextPart (encodeParts (guest :: wasms)) = some (guest, encodeParts wasms) := by
      rw [encodeParts_cons]
      exact nextPart_blob hg _
    exact parseBundleBody_parts hb hjson hguest hwasms

section Verified

variable {t : Texts} {c : ManifestCrypto} {env : Bytes} {e : VerifiedEnvelope}

theorem verifyBundle_parsed {b : BundleBody} (he : verifyEnvelope c env DOMAIN_MANIFEST = .ok e)
    (hb : parseBundleBody t e.body = .ok b) : verifyBundle t c env = .ok ⟨e.author, e.edPk, e.mlPk, b⟩ := by
  unfold verifyBundle
  rw [he]
  dsimp only
  rw [hb]
  rfl

theorem verifyBundle_refused {x : BundleError} (he : verifyEnvelope c env DOMAIN_MANIFEST = .ok e)
    (hb : parseBundleBody t e.body = .error x) : verifyBundle t c env = .error x := by
  unfold verifyBundle
  rw [he]
  dsimp only
  rw [hb]
  rfl

end Verified

/-- An envelope is accepted as a bundle for one reason: it is the suite, the keys, a good signature
of each over the body, and a framed body whose manifest is in order. -/
theorem verifyBundle_ok (t : Texts) (c : ManifestCrypto) (env : Bytes) (v : VerifiedBundle) :
    verifyBundle t c env = .ok v ↔
      ∃ (h : EnvelopeHead) (json guest : Bytes) (wasms : List Bytes), h.Wide ∧
        env = envelope h (encodeParts (json :: guest :: wasms)) ∧
        Signed c DOMAIN_MANIFEST h (encodeParts (json :: guest :: wasms)) ∧
        v.bundle.Of t json guest wasms ∧ v.edPk = h.edPk ∧ v.mlPk = h.mlPk ∧
        v.author = hybridAuthorId c h.edPk h.mlPk := by
  constructor
  · intro h
    unfold verifyBundle at h
    split at h
    · cases h
    · next e he =>
      obtain ⟨b, hb, hv⟩ : ∃ b, parseBundleBody t e.body = .ok b ∧ v = ⟨e.author, e.edPk, e.mlPk, b⟩ := by
        cases hp : parseBundleBody t e.body with
        | error x =>
          rw [hp] at h
          cases h
        | ok b =>
          rw [hp] at h
          cases h
          exact ⟨b, rfl, rfl⟩
      obtain ⟨json, guest, wasms, hbody, hof⟩ := (parseBundleBody_ok t e.body b).mp hb
      obtain ⟨head, hwide, henv, hsigned, hed, hml, hauthor⟩ := (verifyEnvelope_ok c env DOMAIN_MANIFEST e).mp he
      subst hv
      rw [hbody] at henv hsigned
      exact ⟨head, json, guest, wasms, hwide, henv, hsigned, hof, hed, hml, hauthor⟩
  · rintro ⟨head, json, guest, wasms, hwide, henv, hsigned, hof, hed, hml, hauthor⟩
    have he := (verifyEnvelope_ok c env DOMAIN_MANIFEST
      ⟨v.author, v.edPk, v.mlPk, encodeParts (json :: guest :: wasms)⟩).mpr
        ⟨head, hwide, henv, hsigned, hed, hml, hauthor⟩
    exact verifyBundle_parsed he ((parseBundleBody_ok t _ v.bundle).mpr ⟨json, guest, wasms, rfl, hof⟩)

/-! ### Authors -/

theorem signEnvelope_eq (c : ManifestCrypto) (keys : HybridAuthorKeys) (domain body : Bytes) :
    signEnvelope c keys domain body = envelope ⟨keys.ed.publicKey, keys.mlDsa.publicKey,
      c.edSign (envelopeSigningInput c domain keys.ed.publicKey keys.mlDsa.publicKey body) keys.ed.privateKey,
      c.mlSign (envelopeSigningInput c domain keys.ed.publicKey keys.mlDsa.publicKey body) keys.mlDsa.privateKey⟩ body :=
  rfl

theorem signEnvelope_wide {c : ManifestCrypto} {keys : HybridAuthorKeys} (hk : Correct c keys) (domain body : Bytes) :
    ∃ h : EnvelopeHead, h.Wide ∧ signEnvelope c keys domain body = envelope h body :=
  ⟨_, ⟨hk.edKey, hk.mlKey, hk.edSig _, hk.mlSig _⟩, signEnvelope_eq c keys domain body⟩

/-- What an author signs is good, under the domain it was signed for. -/
theorem verify_signed {c : ManifestCrypto} {keys : HybridAuthorKeys} (hk : Correct c keys) (domain body : Bytes) :
    verifyEnvelope c (signEnvelope c keys domain body) domain =
      .ok ⟨hybridAuthorId c keys.ed.publicKey keys.mlDsa.publicKey, keys.ed.publicKey, keys.mlDsa.publicKey,
          body⟩ := by
  rw [verifyEnvelope_ok]
  exact ⟨_, ⟨hk.edKey, hk.mlKey, hk.edSig _, hk.mlSig _⟩, signEnvelope_eq c keys domain body,
    ⟨hk.edGood _, hk.mlGood _⟩, rfl, rfl, rfl⟩

theorem toJson_modules (input : UnsignedBundle) : input.toJson.field (js "modules") =
    some (.arr (input.modules.map fun m => .obj [(js "name", .str m.1)])) := by
  have hother : decide (js "guest" = js "modules") = false := by decide
  simp only [UnsignedBundle.toJson, Json.field, List.reverse_append, List.reverse_cons, List.reverse_nil,
    List.nil_append, List.cons_append, List.find?_cons, hother, decide_true, Option.map_some]

theorem isValidManifest_names {o : Json} {m : BundleManifest} {items : List Json} (h : isValidManifest o = some m)
    (hf : o.field (js "modules") = some (.arr items)) :
    items.map (fun item => (item.field (js "name")).bind Json.str?) = m.modules.map some := by
  simp only [isValidManifest, Option.bind_eq_bind, Option.bind_eq_some_iff, Option.pure_def, Option.some.injEq] at h
  obtain ⟨-, -, -, -, -, -, -, -, -, -, -, -, items', ⟨arr, harr, hitems⟩, -, -, names, hnames, -, -, -, -, -,
    -, -, -, rfl⟩ := h
  rw [hf] at harr
  cases harr
  cases hitems
  obtain ⟨ps, hps, hitems, -⟩ := uniqueNames_spec hnames
  rw [List.nil_append] at hps
  rw [hps]
  exact hitems

/-- The modules of a manifest made from `input` are its modules, in order. -/
theorem toJson_view {input : UnsignedBundle} {view : BundleManifest} (h : validateManifest input.toJson = .ok view) :
    view.modules = input.modules.map Prod.fst := by
  have hnames := isValidManifest_names (validateManifest_ok h).1 (toJson_modules input)
  have hitem : ∀ m : JsString × Bytes,
      ((Json.obj [(js "name", .str m.1)]).field (js "name")).bind Json.str? = some m.1 := by
    intro m
    simp [Json.field, Json.str?]
  rw [List.map_map] at hnames
  simp only [Function.comp_def, hitem] at hnames
  have hmap := congrArg (List.map fun x : Option JsString => x.getD []) hnames
  simp only [List.map_map, Function.comp_def, Option.getD_some, List.map_id'] at hmap
  exact hmap.symm

theorem toJson_guest (input : UnsignedBundle) : ¬ (input.toJson.isRecord = true ∧
    (input.toJson.field (js "guest")).isNone = true) := by
  simp [UnsignedBundle.toJson, Json.field]

section Made

variable {t : Texts} {c : ManifestCrypto} {keys : HybridAuthorKeys} {input : UnsignedBundle} {manifest : Json}
  {text : JsString}

/-- What an author's manifest is read back as is the manifest. -/
theorem manifestOf_self (hl : t.Lawful) (hm : manifestOf t input = some manifest) : manifest = input.toJson := by
  obtain ⟨s, hs, hp⟩ := Option.bind_eq_some_iff.mp hm
  rw [hl.json _ _ hs] at hp
  exact (Option.some.inj hp).symm

theorem parse_text (hl : t.Lawful) (ht : t.stringify manifest = some text) :
    t.parse (t.decode (Utf.utf8Encode text)) = some manifest := by
  obtain ⟨hwell, hbom⟩ := hl.wellFormed _ _ ht
  rw [hl.decode _ hwell hbom]
  exact hl.json _ _ ht

theorem authorBundle_made {view : BundleManifest} (hm : manifestOf t input = some manifest)
    (hview : validateManifest manifest = .ok view) (ht : t.stringify manifest = some text) :
    authorBundle t c keys input = .ok ⟨signEnvelope c keys DOMAIN_MANIFEST (encodeParts (bundleParts input t text)),
      manifest, hybridAuthorId c keys.ed.publicKey keys.mlDsa.publicKey⟩ := by
  unfold authorBundle
  rw [hm]
  dsimp only
  rw [hview]
  dsimp only
  rw [ht]

theorem authorBundle_refused {e : ManifestError} (hm : manifestOf t input = some manifest)
    (he : validateManifest manifest = .error e) : authorBundle t c keys input = .error (.manifest e) := by
  unfold authorBundle
  rw [hm]
  dsimp only
  rw [he]

end Made

/-- An author signs what a verifier accepts, and it reads back as it was handed in; what an author
refuses for its manifest, a verifier refuses in the same words. -/
theorem author_verifies {t : Texts} (hl : t.Lawful) {c : ManifestCrypto} {keys : HybridAuthorKeys}
    (hk : Correct c keys) {input : UnsignedBundle} {manifest : Json} {text : JsString}
    (hm : manifestOf t input = some manifest)
    (ht : t.stringify manifest = some text) (hshort : ∀ p ∈ bundleParts input t text, p.length < 2 ^ 32) :
    let env := signEnvelope c keys DOMAIN_MANIFEST (encodeParts (bundleParts input t text))
    let author := hybridAuthorId c keys.ed.publicKey keys.mlDsa.publicKey
    (∀ view, validateManifest manifest = .ok view →
      authorBundle t c keys input = .ok ⟨env, manifest, author⟩ ∧
      verifyBundle t c env = .ok ⟨author, keys.ed.publicKey, keys.mlDsa.publicKey,
        ⟨manifest, view, t.decode (Utf.utf8Encode (t.stripComments input.guestSource)), input.modules⟩⟩) ∧
    ∀ e, validateManifest manifest = .error e →
      authorBundle t c keys input = .error (.manifest e) ∧ verifyBundle t c env = .error (.manifest e) := by
  intro env author
  have hself := manifestOf_self hl hm
  have hparse := parse_text hl ht
  have henv : verifyEnvelope c env DOMAIN_MANIFEST = .ok ⟨author, keys.ed.publicKey, keys.mlDsa.publicKey,
      encodeParts (bundleParts input t text)⟩ := verify_signed hk _ _
  constructor
  · intro view hview
    refine ⟨authorBundle_made hm hview ht, verifyBundle_parsed henv ?_⟩
    have hnames := toJson_view (hself ▸ hview)
    rw [parseBundleBody_ok]
    refine ⟨_, _, _, rfl, hshort, hparse, hview, ?_, rfl, ?_⟩
    · rw [hnames, List.length_map, List.length_map]
    · dsimp only
      rw [hnames, List.zip_map', List.map_id']
  · intro e he
    refine ⟨authorBundle_refused hm he, verifyBundle_refused henv ?_⟩
    have hjson : nextPart (encodeParts (bundleParts input t text)) = some (Utf.utf8Encode text,
        encodeParts (bundleParts input t text).tail) := by
      rw [bundleParts, encodeParts_cons]
      exact nextPart_blob (hshort _ List.mem_cons_self) _
    have hguest := toJson_guest input
    rw [← hself] at hguest
    exact parseBundleBody_refused hjson hparse hguest he

/-! A platform and keys small enough to run. -/

def platform : Texts := ⟨Json.stringify, Json.parse, Utf.textDecode, id⟩

theorem platform_lawful : platform.Lawful where
  json := fun _ _ h => Json.parse_stringify h
  wellFormed := fun v s h => ⟨Json.stringify_wellFormed v s h, Json.stringify_head h⟩
  decode := fun s hw hb => (Utf.textDecode_eq_iff s).mpr ⟨hw, hb⟩

/-- The front of a message, as a signature of `n` bytes. -/
def tag (n : Nat) (m : Bytes) : Bytes := (m ++ List.replicate n 0).take n

theorem tag_length (n : Nat) (m : Bytes) : (tag n m).length = n := by
  rw [tag, List.length_take, List.length_append, List.length_replicate]
  omega

def tagCrypto : ManifestCrypto where
  hash := tag 32
  edVerify := fun sig m _ => decide (sig = tag 64 m)
  mlVerify := fun sig m _ => decide (sig = tag 3309 m)
  edSign := fun m _ => tag 64 m
  mlSign := fun m _ => tag 3309 m

def tagKeys : HybridAuthorKeys := ⟨⟨List.replicate 32 1, []⟩, ⟨List.replicate 1952 2, []⟩⟩

theorem tag_correct : Correct tagCrypto tagKeys where
  edKey := List.length_replicate
  mlKey := List.length_replicate
  edSig := fun m => tag_length 64 m
  mlSig := fun m => tag_length 3309 m
  edGood := fun _ => decide_eq_true rfl
  mlGood := fun _ => decide_eq_true rfl

/-- One module, and a guest that may use the timer. -/
def hello : UnsignedBundle where
  app := js "hello"
  version := some 1
  protocols := none
  services := none
  modules := [(js "math", [0, 97, 115, 109])]
  guestSource := js "export default {}"
  guestRequires := [js "timer"]
  guestConfig := none

def helloText : JsString :=
  js "\x7b\"app\":\"hello\",\"version\":1,\"modules\":[\x7b\"name\":\"math\"\x7d],\"guest\":\x7b\"requires\":[\"timer\"]\x7d\x7d"

def helloView : BundleManifest := ⟨js "hello", 1, none, none, [js "math"], [js "timer"], none⟩

theorem hello_text : platform.stringify hello.toJson = some helloText := by decide +kernel

theorem hello_view : validateManifest hello.toJson = .ok helloView := by rfl

theorem hello_short : ∀ p ∈ bundleParts hello platform helloText, p.length < 2 ^ 32 := by decide +kernel

theorem author_verifies_hello : ∃ env,
    authorBundle platform tagCrypto tagKeys hello = .ok ⟨env, hello.toJson,
      hybridAuthorId tagCrypto tagKeys.ed.publicKey tagKeys.mlDsa.publicKey⟩ ∧
    verifyBundle platform tagCrypto env = .ok ⟨hybridAuthorId tagCrypto tagKeys.ed.publicKey tagKeys.mlDsa.publicKey,
      tagKeys.ed.publicKey, tagKeys.mlDsa.publicKey, ⟨hello.toJson, helloView,
        platform.decode (Utf.utf8Encode (platform.stripComments hello.guestSource)), hello.modules⟩⟩ := by
  have hm : manifestOf platform hello = some hello.toJson := by
    rw [manifestOf, hello_text]
    exact platform_lawful.json _ _ hello_text
  have h := (author_verifies platform_lawful tag_correct hm hello_text hello_short).1 helloView hello_view
  exact ⟨_, h⟩

/-! ### What keys vouch for -/

def domains : List Bytes := [DOMAIN_MANIFEST, DOMAIN_HOST]

theorem domains_apart (rest rest' : Bytes) : DOMAIN_MANIFEST ++ rest ≠ DOMAIN_HOST ++ rest' := by
  intro h
  have hget := congrArg (fun m : Bytes => m[11]?) h
  have hm : 11 < DOMAIN_MANIFEST.length := by decide +kernel
  have hh : 11 < DOMAIN_HOST.length := by decide +kernel
  simp only [List.getElem?_append_left hm, List.getElem?_append_left hh] at hget
  exact absurd hget (by decide +kernel)

theorem domain_unique {d d' rest rest' : Bytes} (hd : d ∈ domains) (hd' : d' ∈ domains)
    (h : d ++ rest = d' ++ rest') :
    d = d' := by
  simp only [domains, List.mem_cons, List.not_mem_nil, or_false] at hd hd'
  obtain rfl | rfl := hd
  · obtain rfl | rfl := hd'
    · rfl
    · exact absurd h (domains_apart _ _)
  · obtain rfl | rfl := hd'
    · exact absurd h.symm (domains_apart _ _)
    · rfl

/-- What is signed says what it was signed for, and what was. -/
theorem signingInput_inj {c : ManifestCrypto} {d d' edPk mlPk body body' : Bytes} (hd : d ∈ domains)
    (hd' : d' ∈ domains) (h : envelopeSigningInput c d edPk mlPk body = envelopeSigningInput c d' edPk mlPk body') :
    d = d' ∧ c.hash body = c.hash body' := by
  simp only [envelopeSigningInput] at h
  obtain rfl := domain_unique hd hd' h
  exact ⟨rfl, List.append_cancel_left (List.cons_inj_right SUITE |>.mp (List.append_cancel_left h))⟩

/-- The messages an author signed: bodies, each under a domain. -/
def signedInputs (c : ManifestCrypto) (keys : HybridAuthorKeys) (log : List (Bytes × Bytes)) : List Bytes :=
  log.map fun e => envelopeSigningInput c e.1 keys.ed.publicKey keys.mlDsa.publicKey e.2

/-- An envelope of an author's keys holds, by its hash, a body that the author signed for the very
domain it is taken for. It is enough that signatures of one of the two keys cannot be forged. -/
theorem verified_signed {c : ManifestCrypto} {keys : HybridAuthorKeys} {log : List (Bytes × Bytes)}
    (hlog : ∀ e ∈ log, e.1 ∈ domains)
    (hforge : (∀ sig m, c.edVerify sig m keys.ed.publicKey = true → m ∈ signedInputs c keys log) ∨
      ∀ sig m, c.mlVerify sig m keys.mlDsa.publicKey = true → m ∈ signedInputs c keys log)
    {env domain : Bytes} (hd : domain ∈ domains) {v : VerifiedEnvelope} (hv : verifyEnvelope c env domain = .ok v)
    (hed : v.edPk = keys.ed.publicKey) (hml : v.mlPk = keys.mlDsa.publicKey) :
    ∃ body, (domain, body) ∈ log ∧ c.hash body = c.hash v.body := by
  obtain ⟨h, -, -, ⟨hedGood, hmlGood⟩, hed', hml', -⟩ := (verifyEnvelope_ok c env domain v).mp hv
  rw [← hed', ← hml', hed, hml] at hedGood hmlGood
  have hmem : envelopeSigningInput c domain keys.ed.publicKey keys.mlDsa.publicKey v.body ∈ signedInputs c keys log := by
    obtain hforge | hforge := hforge
    · exact hforge _ _ hedGood
    · exact hforge _ _ hmlGood
  obtain ⟨⟨d, body⟩, he, hinput⟩ := List.mem_map.mp hmem
  obtain ⟨rfl, hhash⟩ := signingInput_inj (hlog _ he) hd hinput
  exact ⟨body, he, hhash⟩

/-- An author that signed one bundle, and keys whose Ed25519 signatures cannot be forged. -/
def oneBundle : List (Bytes × Bytes) := [(DOMAIN_MANIFEST, [1])]

def oneCrypto : ManifestCrypto := { tagCrypto with
  edVerify := fun sig m _ => decide (sig = tag 64 m) && (signedInputs tagCrypto tagKeys oneBundle).contains m }

theorem oneCrypto_inputs (keys : HybridAuthorKeys) (log : List (Bytes × Bytes)) :
    signedInputs oneCrypto keys log = signedInputs tagCrypto keys log := rfl

theorem oneCrypto_signed {body : Bytes} (h : (DOMAIN_MANIFEST, body) ∈ oneBundle) :
    verifyEnvelope oneCrypto (signEnvelope oneCrypto tagKeys DOMAIN_MANIFEST body) DOMAIN_MANIFEST =
      .ok ⟨hybridAuthorId oneCrypto tagKeys.ed.publicKey tagKeys.mlDsa.publicKey, tagKeys.ed.publicKey,
        tagKeys.mlDsa.publicKey, body⟩ := by
  have hgood : ∀ m pk, m ∈ signedInputs tagCrypto tagKeys oneBundle → oneCrypto.edVerify (tag 64 m) m pk = true :=
    fun m _ hm => Bool.and_eq_true_iff.mpr ⟨decide_eq_true rfl, List.contains_iff_mem.mpr hm⟩
  have hml : ∀ m pk, oneCrypto.mlVerify (tag 3309 m) m pk = true := fun _ _ => decide_eq_true rfl
  have hmem : envelopeSigningInput oneCrypto DOMAIN_MANIFEST tagKeys.ed.publicKey tagKeys.mlDsa.publicKey body ∈
      signedInputs tagCrypto tagKeys oneBundle := by
    rw [← oneCrypto_inputs]
    exact List.mem_map_of_mem h
  rw [verifyEnvelope_ok]
  exact ⟨_, ⟨tag_correct.edKey, tag_correct.mlKey, tag_length 64 _, tag_length 3309 _⟩,
    signEnvelope_eq oneCrypto tagKeys DOMAIN_MANIFEST body, ⟨hgood _ _ hmem, hml _ _⟩,
    rfl, rfl, rfl⟩

theorem verified_signed_one : ∃ body, (DOMAIN_MANIFEST, body) ∈ oneBundle ∧
    oneCrypto.hash body = oneCrypto.hash [1] := by
  have hlog : ∀ e ∈ oneBundle, e.1 ∈ domains := by
    intro e he
    rw [List.mem_singleton.mp he]
    exact List.mem_cons_self
  have hforge : ∀ sig m, oneCrypto.edVerify sig m tagKeys.ed.publicKey = true →
      m ∈ signedInputs oneCrypto tagKeys oneBundle := by
    intro sig m hm
    rw [oneCrypto_inputs]
    exact List.contains_iff_mem.mp (Bool.and_eq_true_iff.mp hm).2
  have hsigned := oneCrypto_signed (show (DOMAIN_MANIFEST, [1]) ∈ oneBundle from List.mem_singleton_self _)
  have hdomain : DOMAIN_MANIFEST ∈ domains := List.mem_cons_self
  have h := verified_signed hlog (.inl hforge) hdomain hsigned rfl rfl
  exact h

/-! ### Host blobs -/

/-- The manifest of a host blob, as `signHostBlob` is handed it. -/
def HostBlob.toJson (h : HostBlob) : Json :=
  .obj [(js "version", .num (h.version : ℚ)), (js "abi", .num (h.abi : ℚ))]

/-- Its parts, in the order of `HOST_PART_NAMES`. -/
def HostBlob.partList (h : HostBlob) : List Bytes := [h.script, h.qjs, h.sodium, h.mldsa, h.transport]

def signHostBlob (t : Texts) (c : ManifestCrypto) (keys : HybridAuthorKeys) (h : HostBlob) : Option Bytes :=
  (t.stringify h.toJson).map fun text =>
    signEnvelope c keys DOMAIN_HOST (encodeParts (Utf.utf8Encode text :: h.partList))

/-- A body read as a host's manifest and parts. -/
structure HostBlob.Of (t : Texts) (h : HostBlob) (json : Bytes) : Prop where
  short : ∀ p ∈ json :: h.partList, p.length < 2 ^ 32
  manifest : ∃ m, t.parse (t.decode json) = some m ∧ positiveField m (js "version") = some h.version ∧
    positiveField m (js "abi") = some h.abi

theorem parseHostBody_parts {t : Texts} {body rest json : Bytes} {m : Json} {h : HostBlob}
    (hjson : nextPart body = some (json, rest)) (hparse : t.parse (t.decode json) = some m)
    (hversion : positiveField m (js "version") = some h.version) (habi : positiveField m (js "abi") = some h.abi)
    (hparts : nextParts 5 rest = some ([h.script, h.qjs, h.sodium, h.mldsa, h.transport], [])) :
    parseHostBody t body = .ok h := by
  unfold parseHostBody
  simp only [hjson, hparse, hversion, habi, hparts, if_true]

theorem parseHostBody_ok (t : Texts) (body : Bytes) (h : HostBlob) :
    parseHostBody t body = .ok h ↔ ∃ json, body = encodeParts (json :: h.partList) ∧ h.Of t json := by
  constructor
  · intro hb
    unfold parseHostBody at hb
    split at hb
    · cases hb
    · next json rest hjson =>
      split at hb
      · cases hb
      · next m hparse =>
        split at hb
        · next version abi hversion habi =>
          split at hb
          · next hparts =>
            split at hb
            · next hdone =>
              cases hb
              obtain ⟨hj, rfl⟩ := nextPart_some hjson
              obtain ⟨-, hall, rfl⟩ := (nextParts_iff _ _ _ _).mp hparts
              refine ⟨json, ?_, ?_, m, hparse, hversion, habi⟩
              · rw [hdone, List.append_nil, encodeParts_cons json]
                rfl
              · exact List.forall_mem_cons.mpr ⟨hj, hall⟩
            · cases hb
          · cases hb
        · cases hb
  · rintro ⟨json, rfl, hshort, m, hparse, hversion, habi⟩
    obtain ⟨hj, hall⟩ := List.forall_mem_cons.mp hshort
    have hparts := (nextParts_iff 5 (encodeParts h.partList) h.partList []).mpr ⟨rfl, hall, (List.append_nil _).symm⟩
    have hjson : nextPart (encodeParts (json :: h.partList)) = some (json, encodeParts h.partList) := by
      rw [encodeParts_cons]
      exact nextPart_blob hj _
    exact parseHostBody_parts hjson hparse hversion habi hparts

theorem readHostBlob_ok (t : Texts) (env : Bytes) (h : HostBlob) :
    readHostBlob t env = .ok h ↔ ∃ (head : EnvelopeHead) (json : Bytes), head.Wide ∧
      env = envelope head (encodeParts (json :: h.partList)) ∧ h.Of t json := by
  unfold readHostBlob
  constructor
  · intro hr
    split at hr
    · cases hr
    · next body hbody =>
      obtain ⟨hwide, henv⟩ := (envelopeBody_ok env body).mp hbody
      obtain ⟨json, rfl, hof⟩ := (parseHostBody_ok t body h).mp hr
      exact ⟨envelopeHead env, json, hwide, henv, hof⟩
  · rintro ⟨head, json, hwide, rfl, hof⟩
    have hbody := (envelopeBody_ok (envelope head (encodeParts (json :: h.partList)))
        (encodeParts (json :: h.partList))).mpr
      (by rw [envelopeHead_envelope hwide]; exact ⟨hwide, rfl⟩)
    rw [hbody]
    exact (parseHostBody_ok t _ h).mpr ⟨json, rfl, hof⟩

/-! ### The native loader -/

theorem goPart_blob {p : Bytes} (h : p.length < 2 ^ 32) (rest : Bytes) :
    goPart (blob p ++ rest) = if p.length + 4 < 2 ^ 32 then .ok (p, rest) else .error .panic := by
  have hread : readU32BE (blob p ++ rest) 0 = p.length := by
    rw [blob, List.append_assoc, readU32BE_write, Nat.mod_eq_of_lt h]
  have hlen : (blob p ++ rest).length = 4 + p.length + rest.length := by
    rw [List.length_append, blob_length]
  have hin : ¬ ((blob p ++ rest).length < 4 ∨ readU32BE (blob p ++ rest) 0 > (blob p ++ rest).length - 4) := by
    omega
  rw [goPart, if_neg hin, hread]
  simp only
  by_cases hfit : p.length + 4 < 2 ^ 32
  · have hstop : (4 + p.length) % 2 ^ 32 = 4 + p.length := Nat.mod_eq_of_lt (by omega)
    have hpart : subarray (blob p ++ rest) 4 (4 + p.length) = p := by
      rw [blob, List.append_assoc]
      exact subarray_part (writeU32BE_length _) rfl
    rw [hstop, if_neg (by omega), if_pos hfit, hpart, ← blob_length, List.drop_left]
  · rw [if_pos (by omega), if_neg hfit]

theorem hostParts_steps {env body rest rest' last json script qjs : Bytes} (hlen : ¬ env.length < OFF_BODY)
    (hbody : env.drop OFF_BODY = body)
    (h1 : goPart body = if json.length + 4 < 2 ^ 32 then .ok (json, rest) else .error .panic)
    (h2 : goPart rest = if script.length + 4 < 2 ^ 32 then .ok (script, rest') else .error .panic)
    (h3 : goPart rest' = if qjs.length + 4 < 2 ^ 32 then .ok (qjs, last) else .error .panic) :
    hostParts env = if json.length + 4 < 2 ^ 32 ∧ script.length + 4 < 2 ^ 32 ∧ qjs.length + 4 < 2 ^ 32
      then .parts script qjs else .panic := by
  rw [hostParts, if_neg hlen, hbody, h1]
  by_cases c1 : json.length + 4 < 2 ^ 32
  · rw [if_pos c1]
    dsimp only
    rw [h2]
    by_cases c2 : script.length + 4 < 2 ^ 32
    · rw [if_pos c2]
      dsimp only
      rw [h3]
      by_cases c3 : qjs.length + 4 < 2 ^ 32
      · rw [if_pos c3, if_pos ⟨c1, c2, c3⟩]
      · rw [if_neg c3, if_neg fun h => c3 h.2.2]
    · rw [if_neg c2, if_neg fun h => c2 h.2.1]
  · rw [if_neg c1, if_neg fun h => c1 h.1]

/-- How the loop over three parts ends, where each is there. -/
theorem hostParts_envelope {head : EnvelopeHead} (hw : head.Wide) {json script qjs : Bytes} {parts : List Bytes}
    (hj : json.length < 2 ^ 32) (hs : script.length < 2 ^ 32) (hq : qjs.length < 2 ^ 32) :
    hostParts (envelope head (encodeParts (json :: script :: qjs :: parts))) =
      if json.length + 4 < 2 ^ 32 ∧ script.length + 4 < 2 ^ 32 ∧ qjs.length + 4 < 2 ^ 32 then .parts script qjs
      else .panic := by
  obtain ⟨hlen, hdrop⟩ := envelope_split hw (encodeParts (json :: script :: qjs :: parts))
  rw [encodeParts_cons, encodeParts_cons, encodeParts_cons] at hdrop hlen ⊢
  exact hostParts_steps hlen hdrop (goPart_blob hj _) (goPart_blob hs _) (goPart_blob hq _)

/-- The native loader runs the script and the engine that the host reads of the blob, or it panics:
where a part up to the engine ends past what its 32-bit sum can say. -/
theorem native_agrees {t : Texts} {env : Bytes} {h : HostBlob} (hr : readHostBlob t env = .ok h) :
    ∃ json, env.drop OFF_BODY = encodeParts (json :: h.partList) ∧
      hostParts env = if ∀ p ∈ [json, h.script, h.qjs], p.length + 4 < 2 ^ 32 then .parts h.script h.qjs else .panic := by
  obtain ⟨head, json, hw, rfl, hof⟩ := (readHostBlob_ok t env h).mp hr
  obtain ⟨hj, hall⟩ := List.forall_mem_cons.mp hof.short
  obtain ⟨hs, hall⟩ := List.forall_mem_cons.mp hall
  obtain ⟨hq, -⟩ := List.forall_mem_cons.mp hall
  refine ⟨json, (envelope_split hw _).2, ?_⟩
  rw [HostBlob.partList, hostParts_envelope hw hj hs hq]
  refine if_congr ?_ rfl rfl
  rw [List.forall_mem_cons, List.forall_mem_cons, List.forall_mem_singleton]

theorem HostBlob.toJson_fields (h : HostBlob) (hv : 1 ≤ h.version ∧ h.version ≤ 2 ^ 53 - 1)
    (ha : 1 ≤ h.abi ∧ h.abi ≤ 2 ^ 53 - 1) :
    positiveField h.toJson (js "version") = some h.version ∧ positiveField h.toJson (js "abi") = some h.abi := by
  have hother : decide (js "abi" = js "version") = false := by decide
  constructor
  · simp only [positiveField, HostBlob.toJson, Json.field, List.reverse_cons, List.reverse_nil, List.nil_append,
      List.cons_append, List.find?_cons, hother, decide_true, Option.map_some, Option.bind_some,
      Json.safeNat?_nat hv.2, Option.filter_some, hv.1, if_true]
  · simp only [positiveField, HostBlob.toJson, Json.field, List.reverse_cons, List.reverse_nil, List.nil_append,
      List.cons_append, List.find?_cons, decide_true, Option.map_some, Option.bind_some, Json.safeNat?_nat ha.2,
      Option.filter_some, ha.1, if_true]

theorem HostBlob.of_text {t : Texts} (hl : t.Lawful) {h : HostBlob} (hv : 1 ≤ h.version ∧ h.version ≤ 2 ^ 53 - 1)
    (ha : 1 ≤ h.abi ∧ h.abi ≤ 2 ^ 53 - 1) {text : JsString} (ht : t.stringify h.toJson = some text)
    (hshort : ∀ p ∈ Utf.utf8Encode text :: h.partList, p.length + 4 < 2 ^ 32) : h.Of t (Utf.utf8Encode text) := by
  obtain ⟨hversion, habi⟩ := h.toJson_fields hv ha
  refine ⟨fun p hp => ?_, h.toJson, parse_text hl ht, hversion, habi⟩
  have h4 := hshort p hp
  omega

theorem readHostBlob_signed {t : Texts} {c : ManifestCrypto} {keys : HybridAuthorKeys} (hk : Correct c keys)
    {h : HostBlob} {json : Bytes} (hof : h.Of t json) :
    readHostBlob t (signEnvelope c keys DOMAIN_HOST (encodeParts (json :: h.partList))) = .ok h := by
  obtain ⟨head, hw, henv⟩ := signEnvelope_wide hk DOMAIN_HOST (encodeParts (json :: h.partList))
  exact (readHostBlob_ok t _ h).mpr ⟨head, json, hw, henv, hof⟩

/-- A signed host blob reads back, to the host that checks it and to the loaders that run it. -/
theorem signHostBlob_reads {t : Texts} (hl : t.Lawful) {c : ManifestCrypto} {keys : HybridAuthorKeys}
    (hk : Correct c keys) {h : HostBlob} (hv : 1 ≤ h.version ∧ h.version ≤ 2 ^ 53 - 1)
    (ha : 1 ≤ h.abi ∧ h.abi ≤ 2 ^ 53 - 1) {text : JsString} (ht : t.stringify h.toJson = some text)
    (hshort : ∀ p ∈ Utf.utf8Encode text :: h.partList, p.length + 4 < 2 ^ 32) :
    ∃ env, signHostBlob t c keys h = some env ∧ verifyHostBlob t c env = .ok h ∧ readHostBlob t env = .ok h ∧
      hostParts env = .parts h.script h.qjs := by
  have hof := HostBlob.of_text hl hv ha ht hshort
  refine ⟨_, by rw [signHostBlob, ht]; rfl, ?_, readHostBlob_signed hk hof, ?_⟩
  · unfold verifyHostBlob
    rw [verify_signed hk]
    exact (parseHostBody_ok t _ h).mpr ⟨_, rfl, hof⟩
  · obtain ⟨h1, hall⟩ := List.forall_mem_cons.mp hshort
    obtain ⟨h2, hall⟩ := List.forall_mem_cons.mp hall
    obtain ⟨h3, -⟩ := List.forall_mem_cons.mp hall
    obtain ⟨l1, hall⟩ := List.forall_mem_cons.mp hof.short
    obtain ⟨l2, hall⟩ := List.forall_mem_cons.mp hall
    obtain ⟨l3, -⟩ := List.forall_mem_cons.mp hall
    obtain ⟨head, hw, henv⟩ := signEnvelope_wide hk DOMAIN_HOST (encodeParts (Utf.utf8Encode text :: h.partList))
    rw [henv, HostBlob.partList, hostParts_envelope hw l1 l2 l3, if_pos ⟨h1, h2, h3⟩]

/-- A host blob with parts of a few bytes. -/
def tinyHost : HostBlob := ⟨3, 1, [1, 2], [3], [4], [], [5, 6, 7]⟩

def tinyText : JsString := js "\x7b\"version\":3,\"abi\":1\x7d"

theorem tiny_text : platform.stringify tinyHost.toJson = some tinyText := by decide +kernel

theorem signHostBlob_reads_tiny : ∃ env, signHostBlob platform tagCrypto tagKeys tinyHost = some env ∧
    verifyHostBlob platform tagCrypto env = .ok tinyHost ∧ readHostBlob platform env = .ok tinyHost ∧
    hostParts env = .parts tinyHost.script tinyHost.qjs :=
  signHostBlob_reads platform_lawful tag_correct (by decide) (by decide) tiny_text (by decide +kernel)

theorem native_agrees_tiny : ∃ json,
    (signEnvelope tagCrypto tagKeys DOMAIN_HOST
        (encodeParts (Utf.utf8Encode tinyText :: tinyHost.partList))).drop OFF_BODY =
      encodeParts (json :: tinyHost.partList) ∧
    hostParts (signEnvelope tagCrypto tagKeys DOMAIN_HOST
        (encodeParts (Utf.utf8Encode tinyText :: tinyHost.partList))) =
      if ∀ p ∈ [json, tinyHost.script, tinyHost.qjs], p.length + 4 < 2 ^ 32 then .parts tinyHost.script tinyHost.qjs
      else .panic :=
  native_agrees (readHostBlob_signed tag_correct
    (HostBlob.of_text platform_lawful (by decide) (by decide) tiny_text (by decide +kernel)))

end Bundle

end SeedTransport
