import SeedTransport.Host.Install

set_option autoImplicit false

namespace SeedTransport

/-! What holds of a node under every interleaving of its installs, removals, revocations
and its close: an install either hands over as a whole or leaves no trace. -/

/-- An install that still goes on. -/
def Stage.Open : Stage → Prop
  | .resolved _ => False
  | .rejected _ => False
  | _ => True

def Stage.Resolved : Stage → Prop
  | .resolved _ => True
  | _ => False

/-- What the slot of an install may be where the install is not in the table. -/
def Stage.Fits : Stage → SlotState → Prop
  | .idle, s => s = .unborn
  | .admitting _, s => s = .unborn
  | .loading _, s => s = .unborn
  | .standing _, s => s = .newSlot
  | .resolved _, _ => True
  | .rejected _, s => s.Disposed

namespace ShellNode

/-! ### What a step of an install can do -/

/-- What the last checks let through. -/
structure Gated (n : ShellNode) (c : Candidate) (store : FreshnessMarks) : Prop where
  gates : checkHostGates c.loaded n.store = .ok ()
  stands : n.closed = false
  free : n.table.refuseConflicts c.loaded c.replacement c.bootTransport = .ok ()
  written : ∃ persists, n.store.set c.loaded.author c.loaded.manifest.app
    c.loaded.manifest.version persists = (.ok (), store)

theorem checkInstallation_ok {n : ShellNode} {c : Candidate} (h : n.checkInstallation c = .ok ()) :
    n.closed = false ∧
      n.table.refuseConflicts c.loaded c.replacement c.bootTransport = .ok () := by
  unfold checkInstallation at h
  split at h
  · simp at h
  · rename_i hc
    exact ⟨by simpa using hc, h⟩

theorem gates_ok {n : ShellNode} {c : Candidate} {made : Except String Unit} {persists : Bool}
    {store : FreshnessMarks} (h : n.gates c made persists = (.ok (), store)) : Gated n c store := by
  unfold gates at h
  split at h
  · simp at h
  · split at h
    · simp at h
    · rename_i hg
      split at h
      · simp at h
      · rename_i hc
        obtain ⟨hs, hf⟩ := checkInstallation_ok hc
        exact ⟨hg, hs, hf, persists, h⟩

/-- Whatever of the last checks fails, the store is as it was. -/
theorem gates_error {n : ShellNode} {c : Candidate} {made : Except String Unit} {persists : Bool}
    {store : FreshnessMarks} {e : String} (h : n.gates c made persists = (.error e, store)) :
    store = n.store := by
  unfold gates at h
  split at h
  · exact (Prod.mk.inj h).2.symm
  · split at h
    · exact (Prod.mk.inj h).2.symm
    · split at h
      · exact (Prod.mk.inj h).2.symm
      · exact FreshnessMarks.set_error h

/-- An own step of an install: it moves along, or it ends in a rejection. -/
structure OwnStep (n n' : ShellNode) (i : Nat) : Prop where
  was : (n.stage i).Open
  moved : ∃ stage slot, n' = n.move i stage slot ∧ ¬ stage.Resolved ∧
    ((n.stage i).Fits (n.slot i) → stage.Fits slot)

theorem ownStep_same {n : ShellNode} {i : Nat} {stage : Stage} (hwas : (n.stage i).Open)
    (hnot : ¬ stage.Resolved) (hfits : (n.stage i).Fits (n.slot i) → stage.Fits (n.slot i)) :
    OwnStep n (n.move i stage (n.slot i)) i :=
  ⟨hwas, stage, n.slot i, rfl, hnot, hfits⟩

theorem disposed_unborn {s : SlotState} (h : s = .unborn) : s.Disposed := by
  subst h
  decide

theorem ownStep_prepare {n : ShellNode} {i : Nat} {c : Candidate} (hwas : (n.stage i).Open)
    (hfits : (n.stage i).Fits (n.slot i) → n.slot i = .unborn) : OwnStep n (n.prepare i c) i := by
  unfold prepare
  split
  · exact ownStep_same hwas id fun h => disposed_unborn (hfits h)
  · exact ownStep_same hwas id hfits

/-- All that the event of an install does: nothing, a step of its own, or the handover. -/
theorem step_install (opts : BootOptions) (n : ShellNode) {e : ShellEvent} {i : Nat}
    (he : e.installOf = some i) :
    n.step opts e = n ∨ OwnStep n (n.step opts e) i ∨
      ∃ c store, n.stage i = .standing c ∧ Gated n c store ∧ n.step opts e = n.commit i c store := by
  cases e with
  | install j blob load bootTransport =>
    obtain rfl : j = i := Option.some.inj he
    simp only [step]
    split
    · rename_i hst
      have hwas : (n.stage j).Open := by rw [hst]; trivial
      have hfits : (n.stage j).Fits (n.slot j) → n.slot j = .unborn := by rw [hst]; exact id
      refine .inr (.inl ?_)
      split
      · exact ownStep_same hwas id fun h => disposed_unborn (hfits h)
      · split
        · exact ownStep_prepare hwas hfits
        · exact ownStep_same hwas id hfits
    · exact .inl rfl
  | admitted j answer =>
    obtain rfl : j = i := Option.some.inj he
    simp only [step]
    split
    · rename_i hst
      have hwas : (n.stage j).Open := by rw [hst]; trivial
      have hfits : (n.stage j).Fits (n.slot j) → n.slot j = .unborn := by rw [hst]; exact id
      refine .inr (.inl ?_)
      split
      · exact ownStep_same hwas id fun h => disposed_unborn (hfits h)
      · exact ownStep_same hwas id fun h => disposed_unborn (hfits h)
      · exact ownStep_prepare hwas hfits
    · exact .inl rfl
  | modulesLoaded j made =>
    obtain rfl : j = i := Option.some.inj he
    simp only [step]
    split
    · rename_i hst
      have hwas : (n.stage j).Open := by rw [hst]; trivial
      have hfits : (n.stage j).Fits (n.slot j) → n.slot j = .unborn := by rw [hst]; exact id
      refine .inr (.inl ?_)
      split
      · exact ownStep_same hwas id fun h => disposed_unborn (hfits h)
      · exact ⟨hwas, _, _, rfl, id, fun _ => rfl⟩
    · exact .inl rfl
  | realmStood j made persists =>
    obtain rfl : j = i := Option.some.inj he
    simp only [step]
    split
    · rename_i c hst
      have hwas : (n.stage j).Open := by rw [hst]; trivial
      split
      · rename_i e store hg
        rw [gates_error hg]
        exact .inr (.inl ⟨hwas, .rejected e, _, rfl, id, fun _ => SlotState.disposed_dispose _⟩)
      · rename_i store hg
        exact .inr (.inr ⟨c, store, hst, gates_ok hg, rfl⟩)
    · exact .inl rfl
  | uninstall app => simp [ShellEvent.installOf] at he
  | revoke author persists => simp [ShellEvent.installOf] at he
  | close => simp [ShellEvent.installOf] at he

/-! ### What a node keeps -/

structure Kept (n : ShellNode) : Prop where
  sound : n.table.Sound
  /-- A slot in the table came from a resolved install, and runs. -/
  seated : ∀ s ∈ n.table.slots, n.stage s.id = .resolved s ∧ n.slot s.id = .running
  fits : ∀ i, (n.stage i).Fits (n.slot i)
  /-- A slot that left the table holds nothing. -/
  gone : ∀ i s, n.stage i = .resolved s → s.id = i ∧ (s ∉ n.table.slots → (n.slot i).Disposed)
  marked : ∀ s ∈ n.table.slots, n.store.get s.verifiedBundle.author s.label =
    some s.verifiedBundle.manifest.version
  trusted : ∀ s ∈ n.table.slots, s.verifiedBundle.author ∉ n.store.revoked
  shut : n.closed = true → n.table.slots = []
  /-- The driver is bound to whoever holds `link`. -/
  bound : ∀ t, n.netHost = some t →
    t.call = (n.table.occupant "link").map AppSlot.id ∧ (t.closed = true → n.closed = true)

theorem kept_boot (maxSlots : Nat) (store : FreshnessMarks) (hasNet : Bool) :
    Kept (boot maxSlots store hasNet) where
  sound := SlotTable.sound_create maxSlots
  seated := by simp [boot, SlotTable.create]
  fits := fun _ => rfl
  gone := by simp [boot]
  marked := by simp [boot, SlotTable.create]
  trusted := by simp [boot, SlotTable.create]
  shut := fun _ => rfl
  bound := by
    intro t ht
    cases hasNet with
    | false => simp [boot] at ht
    | true =>
      obtain rfl := Option.some.inj ht
      exact ⟨rfl, by simp⟩

theorem Kept.ownStep {n n' : ShellNode} {i : Nat} (h : Kept n) (ho : OwnStep n n' i) : Kept n' := by
  obtain ⟨hwas, stage, slot, rfl, hnot, hfits⟩ := ho
  have hne : ∀ s ∈ n.table.slots, s.id ≠ i := by
    rintro s hs rfl
    rw [(h.seated s hs).1] at hwas
    exact hwas
  refine ⟨h.sound, fun s hs => ?_, fun j => ?_, fun j s hj => ?_, h.marked, h.trusted, h.shut,
    h.bound⟩
  · simp only [move, Function.update_of_ne (hne s hs)]
    exact h.seated s hs
  · by_cases hj : j = i
    · subst hj
      simpa only [move, Function.update_self] using hfits (h.fits j)
    · simpa only [move, Function.update_of_ne hj] using h.fits j
  · by_cases hji : j = i
    · subst hji
      simp only [move, Function.update_self] at hj
      subst hj
      exact absurd trivial hnot
    · simp only [move, Function.update_of_ne hji] at hj ⊢
      exact h.gone j s hj

/-! ### The handover -/

theorem mem_commit {t : SlotTable} (h : t.Sound) {slot s : AppSlot} {replacement : Option AppSlot}
    (hr : ∀ r, replacement = some r → r ∈ t.slots) :
    s ∈ (t.commit slot replacement).slots ↔
      s = slot ∨ s ∈ t.slots ∧ replacement ≠ some s := by
  cases replacement with
  | none => simp [SlotTable.commit, or_comm]
  | some r =>
    simp only [SlotTable.commit]
    rw [SlotTable.mem_replaceSlot h.nodup (hr r rfl)]
    simp [eq_comm]

/-- A handover leaves the driver bound to whoever holds `link`. -/
theorem bound_rebind {t : SlotTable} (h : t.Sound) (slot : AppSlot) {replacement : Option AppSlot}
    {selected : Bool} (ha : t.Admitted slot.verifiedBundle replacement selected)
    {netHost : Option TransportHost} {closed : Bool}
    (hb : ∀ d, netHost = some d →
      d.call = (t.occupant "link").map AppSlot.id ∧ (d.closed = true → closed = true)) :
    ∀ d, rebind slot (t.commit slot replacement) netHost = some d →
      d.call = ((t.commit slot replacement).occupant "link").map AppSlot.id ∧
        (d.closed = true → closed = true) := by
  intro d hd
  unfold rebind at hd
  cases ho : (t.commit slot replacement).occupant "link" with
  | none =>
    simp only [ho, Option.map_eq_some_iff] at hd
    obtain ⟨d', hd', rfl⟩ := hd
    exact ⟨rfl, (hb d' hd').2⟩
  | some holder =>
    simp only [ho] at hd
    split at hd
    · rename_i heq
      subst heq
      rw [Option.map_eq_some_iff] at hd
      obtain ⟨d', hd', rfl⟩ := hd
      exact ⟨rfl, (hb d' hd').2⟩
    · rename_i hne
      rcases h.occupant_commit slot ha ho with hold | ⟨heq, -⟩
      · rw [← hold]
        exact hb d hd
      · exact absurd heq hne

/-- The slot of another install behind a handover. -/
theorem slot_commit {n : ShellNode} {i : Nat} {c : Candidate} {store : FreshnessMarks} {j : Nat}
    (hj : j ≠ i) (hr : ∀ r, c.replacement = some r → r.id ≠ j) :
    (n.commit i c store).slot j = n.slot j := by
  unfold commit
  cases hc : c.replacement with
  | none => simp only [Function.update_of_ne hj]
  | some r =>
    have hne : j ≠ r.id := fun he => hr r hc he.symm
    simp only [disposeSlot, Function.update_of_ne hne, Function.update_of_ne hj]

theorem slot_commit_self {n : ShellNode} {i : Nat} {c : Candidate} {store : FreshnessMarks}
    (hr : ∀ r, c.replacement = some r → r.id ≠ i) :
    (n.commit i c store).slot i = { n.slot i with realm := .live, active := true } := by
  unfold commit
  cases hc : c.replacement with
  | none => simp only [Function.update_self]
  | some r =>
    have hne : i ≠ r.id := fun he => hr r hc he.symm
    simp only [disposeSlot, Function.update_of_ne hne, Function.update_self]

theorem disposed_commit {n : ShellNode} {i : Nat} {c : Candidate} {store : FreshnessMarks}
    {r : AppSlot} (hc : c.replacement = some r) : ((n.commit i c store).slot r.id).Disposed := by
  simp only [commit, hc, disposeSlot, Function.update_self]
  exact SlotState.disposed_dispose _

@[simp] theorem table_commit (n : ShellNode) (i : Nat) (c : Candidate) (store : FreshnessMarks) :
    (n.commit i c store).table = n.table.commit ⟨i, c.loaded⟩ c.replacement := by
  unfold commit
  cases c.replacement <;> rfl

@[simp] theorem store_commit (n : ShellNode) (i : Nat) (c : Candidate) (store : FreshnessMarks) :
    (n.commit i c store).store = store := by
  unfold commit
  cases c.replacement <;> rfl

@[simp] theorem stage_commit (n : ShellNode) (i : Nat) (c : Candidate) (store : FreshnessMarks) :
    (n.commit i c store).stage = Function.update n.stage i (.resolved ⟨i, c.loaded⟩) := by
  unfold commit
  cases c.replacement <;> rfl

@[simp] theorem closed_commit (n : ShellNode) (i : Nat) (c : Candidate) (store : FreshnessMarks) :
    (n.commit i c store).closed = n.closed := by
  unfold commit
  cases c.replacement <;> rfl

@[simp] theorem netHost_commit (n : ShellNode) (i : Nat) (c : Candidate) (store : FreshnessMarks) :
    (n.commit i c store).netHost =
      rebind ⟨i, c.loaded⟩ (n.table.commit ⟨i, c.loaded⟩ c.replacement) n.netHost := by
  unfold commit
  cases c.replacement <;> rfl

/-- A handover that went through. -/
structure Handover (n n' : ShellNode) (i : Nat) (c : Candidate) : Prop where
  was : n.stage i = .standing c
  trusted : c.loaded.author ∉ n.store.revoked
  /-- The version is at least the mark found, and is the mark from here on. -/
  fresh : ∀ m, n.store.get c.loaded.author c.loaded.manifest.app = some m →
    m ≤ c.loaded.manifest.version
  raised : n'.store.get c.loaded.author c.loaded.manifest.app = some c.loaded.manifest.version
  otherMarks : ∀ author app, (author, app) ≠ (c.loaded.author, c.loaded.manifest.app) →
    n'.store.get author app = n.store.get author app
  revoked : n'.store.revoked = n.store.revoked
  stands : n.closed = false ∧ n'.closed = false
  admitted : n.table.Admitted c.loaded c.replacement c.bootTransport
  table : n'.table = n.table.commit ⟨i, c.loaded⟩ c.replacement
  stage : n'.stage = Function.update n.stage i (.resolved ⟨i, c.loaded⟩)
  netHost : n'.netHost = rebind ⟨i, c.loaded⟩ n'.table n.netHost
  runs : n'.slot i = .running
  disposed : ∀ r, c.replacement = some r → r.id ≠ i ∧ (n'.slot r.id).Disposed
  others : ∀ j, j ≠ i → (∀ r, c.replacement = some r → r.id ≠ j) → n'.slot j = n.slot j

theorem Kept.handover {n : ShellNode} {i : Nat} {c : Candidate} {store : FreshnessMarks} (h : Kept n)
    (hst : n.stage i = .standing c) (hg : Gated n c store) :
    Handover n (n.commit i c store) i c := by
  obtain ⟨htr, hfresh⟩ := checkHostGates_ok hg.gates
  have ha := SlotTable.refuseConflicts_ok h.sound hg.free
  obtain ⟨persists, hset⟩ := hg.written
  obtain ⟨hraised, hrev, hother⟩ := FreshnessMarks.set_ok hset hfresh
  have hr : ∀ r, c.replacement = some r → r.id ≠ i := by
    rintro r hr rfl
    have := (h.seated r (ha.standing r hr)).1
    rw [hst] at this
    simp at this
  have hnew : n.slot i = .newSlot := by
    have := h.fits i
    rw [hst] at this
    exact this
  exact
    { was := hst
      trusted := htr
      fresh := hfresh
      raised := by simpa using hraised
      otherMarks := fun author app hne => by simpa using hother author app hne
      revoked := by simpa using hrev
      stands := ⟨hg.stands, by simpa using hg.stands⟩
      admitted := ha
      table := table_commit ..
      stage := stage_commit ..
      netHost := by simp
      runs := by
        rw [slot_commit_self hr, hnew]
        rfl
      disposed := fun r hc => ⟨hr r hc, disposed_commit hc⟩
      others := fun j hj hrj => slot_commit hj hrj }

theorem Kept.ofHandover {n n' : ShellNode} {i : Nat} {c : Candidate} (h : Kept n)
    (hh : Handover n n' i c) : Kept n' := by
  have hmem : ∀ s, s ∈ n'.table.slots ↔
      s = ⟨i, c.loaded⟩ ∨ s ∈ n.table.slots ∧ c.replacement ≠ some s := by
    intro s
    rw [hh.table]
    exact mem_commit h.sound hh.admitted.standing
  have hne : ∀ s ∈ n.table.slots, s.id ≠ i := by
    rintro s hs rfl
    have := (h.seated s hs).1
    rw [hh.was] at this
    simp at this
  have hids : ∀ s ∈ n.table.slots, c.replacement ≠ some s →
      ∀ r, c.replacement = some r → r.id ≠ s.id := by
    intro s hs hcs r hcr hid
    have h1 := (h.seated s hs).1
    have h2 := (h.seated r (hh.admitted.standing r hcr)).1
    rw [hid, h1] at h2
    simp only [Stage.resolved.injEq] at h2
    exact hcs (h2 ▸ hcr)
  refine ⟨?_, fun s hs => ?_, fun j => ?_, fun j s hj => ?_, fun s hs => ?_, fun s hs => ?_, ?_, ?_⟩
  · rw [hh.table]
    exact h.sound.commit ⟨i, c.loaded⟩ hh.admitted
  · rw [hh.stage]
    rcases (hmem s).1 hs with rfl | ⟨hold, hcs⟩
    · exact ⟨by simp, hh.runs⟩
    · rw [Function.update_of_ne (hne s hold), hh.others s.id (hne s hold) (hids s hold hcs)]
      exact h.seated s hold
  · rw [hh.stage]
    by_cases hj : j = i
    · subst hj
      simp [Stage.Fits]
    · rw [Function.update_of_ne hj]
      by_cases hr : ∃ r, c.replacement = some r ∧ r.id = j
      · obtain ⟨r, hcr, rfl⟩ := hr
        rw [(h.seated r (hh.admitted.standing r hcr)).1]
        trivial
      · rw [hh.others j hj fun r hcr hid => hr ⟨r, hcr, hid⟩]
        exact h.fits j
  · rw [hh.stage] at hj
    by_cases hji : j = i
    · subst hji
      rw [Function.update_self] at hj
      simp only [Stage.resolved.injEq] at hj
      subst hj
      exact ⟨rfl, fun hnot => absurd ((hmem _).2 (.inl rfl)) hnot⟩
    · rw [Function.update_of_ne hji] at hj
      obtain ⟨hid, hgone⟩ := h.gone j s hj
      refine ⟨hid, fun hnot => ?_⟩
      by_cases hcs : c.replacement = some s
      · exact hid ▸ (hh.disposed s hcs).2
      · have hout : s ∉ n.table.slots := fun hs => hnot ((hmem s).2 (.inr ⟨hs, hcs⟩))
        rw [hh.others j hji fun r hcr hrj => ?_]
        · exact hgone hout
        · have h2 := (h.seated r (hh.admitted.standing r hcr)).1
          rw [hrj, hj] at h2
          simp only [Stage.resolved.injEq] at h2
          exact hcs (h2 ▸ hcr)
  · rcases (hmem s).1 hs with rfl | ⟨hold, hcs⟩
    · exact hh.raised
    · rw [hh.otherMarks]
      · exact h.marked s hold
      · intro heq
        have hl : s.label = c.loaded.manifest.app := (Prod.mk.inj heq).2
        exact hcs (hh.admitted.label s hold hl)
  · rw [hh.revoked]
    rcases (hmem s).1 hs with rfl | ⟨hold, -⟩
    · exact hh.trusted
    · exact h.trusted s hold
  · intro hc
    rw [hh.stands.2] at hc
    simp at hc
  · have hb := bound_rebind h.sound ⟨i, c.loaded⟩ hh.admitted h.bound
    intro d hd
    rw [hh.netHost, hh.table] at hd
    rw [hh.table, hh.stands.2, ← hh.stands.1]
    exact hb d hd

/-! ### Removals, revocations, the close -/

@[simp] theorem stage_doUninstall (n : ShellNode) (app : String) :
    (n.doUninstall app).stage = n.stage := by
  unfold doUninstall
  split <;> rfl

@[simp] theorem store_doUninstall (n : ShellNode) (app : String) :
    (n.doUninstall app).store = n.store := by
  unfold doUninstall
  split <;> rfl

@[simp] theorem closed_doUninstall (n : ShellNode) (app : String) :
    (n.doUninstall app).closed = n.closed := by
  unfold doUninstall
  split <;> rfl

@[simp] theorem table_doUninstall (n : ShellNode) (app : String) :
    (n.doUninstall app).table = (n.table.remove app).2 := by
  unfold doUninstall SlotTable.remove
  cases n.table.get app <;> rfl

theorem mem_remove {t : SlotTable} (h : t.Sound) (app : String) (s : AppSlot) :
    s ∈ (t.remove app).2.slots ↔ s ∈ t.slots ∧ s.label ≠ app := by
  unfold SlotTable.remove
  cases hget : t.get app with
  | none => exact ⟨fun hs => ⟨hs, SlotTable.get_none hget s hs⟩, fun hs => hs.1⟩
  | some slot =>
    obtain ⟨hmem, hl⟩ := SlotTable.get_some hget
    simp only [SlotTable.release]
    rw [h.nodup.mem_erase_iff]
    constructor
    · rintro ⟨hne, hs⟩
      exact ⟨hs, fun he => hne (h.label_inj hs hmem (he.trans hl.symm))⟩
    · rintro ⟨hs, hne⟩
      refine ⟨?_, hs⟩
      rintro rfl
      exact hne hl

/-- The slot a removal takes out holds nothing behind it, and no other slot changes. -/
theorem slot_doUninstall {n : ShellNode} (h : Kept n) (app : String) (i : Nat) :
    (n.doUninstall app).slot i = n.slot i ∧
        (∀ s ∈ n.table.slots, s.label = app → s.id ≠ i) ∨
      ((n.doUninstall app).slot i).Disposed ∧ ∃ s ∈ n.table.slots, s.label = app ∧ s.id = i := by
  unfold doUninstall SlotTable.remove
  cases hget : n.table.get app with
  | none => exact .inl ⟨rfl, fun s hs hl => absurd hl (SlotTable.get_none hget s hs)⟩
  | some slot =>
    obtain ⟨hmem, hl⟩ := SlotTable.get_some hget
    simp only [disposeSlot]
    by_cases hi : i = slot.id
    · subst hi
      rw [Function.update_self]
      exact .inr ⟨SlotState.disposed_dispose _, slot, hmem, hl, rfl⟩
    · rw [Function.update_of_ne hi]
      refine .inl ⟨rfl, fun s hs hls hid => hi ?_⟩
      rw [← hid, h.sound.label_inj hs hmem (hls.trans hl.symm)]

theorem Kept.doUninstall {n : ShellNode} (h : Kept n) (app : String) : Kept (n.doUninstall app) := by
  have hmem := fun s => mem_remove h.sound app s
  refine ⟨?_, fun s hs => ?_, fun i => ?_, fun i s hi => ?_, fun s hs => ?_, fun s hs => ?_,
    fun hc => ?_, fun d hd => ?_⟩
  · rw [table_doUninstall]
    exact h.sound.remove app
  · rw [table_doUninstall, hmem] at hs
    rw [stage_doUninstall]
    refine ⟨(h.seated s hs.1).1, ?_⟩
    rcases slot_doUninstall h app s.id with ⟨hsame, -⟩ | ⟨-, s', hs', hl', hid⟩
    · rw [hsame]
      exact (h.seated s hs.1).2
    · have heq := (h.seated s' hs').1
      rw [hid, (h.seated s hs.1).1, Stage.resolved.injEq] at heq
      exact absurd (heq ▸ hl') hs.2
  · rw [stage_doUninstall]
    rcases slot_doUninstall h app i with ⟨hsame, -⟩ | ⟨-, s, hs, -, rfl⟩
    · rw [hsame]
      exact h.fits i
    · rw [(h.seated s hs).1]
      trivial
  · rw [stage_doUninstall] at hi
    obtain ⟨hid, hgone⟩ := h.gone i s hi
    refine ⟨hid, fun hnot => ?_⟩
    rcases slot_doUninstall h app i with ⟨hsame, hother⟩ | ⟨hd, -⟩
    · rw [hsame]
      refine hgone fun hs => hnot ?_
      rw [table_doUninstall, hmem]
      exact ⟨hs, fun hl => hother s hs hl hid⟩
    · exact hd
  · rw [table_doUninstall, hmem] at hs
    rw [store_doUninstall]
    exact h.marked s hs.1
  · rw [table_doUninstall, hmem] at hs
    rw [store_doUninstall]
    exact h.trusted s hs.1
  · rw [closed_doUninstall] at hc
    rw [table_doUninstall, List.eq_nil_iff_forall_not_mem]
    intro s hs
    have := ((hmem s).1 hs).1
    simp [h.shut hc] at this
  · rw [table_doUninstall, closed_doUninstall]
    cases ho : (n.table.remove app).2.occupant "link" with
    | some s =>
      have hnet : (n.doUninstall app).netHost = n.netHost := by
        unfold ShellNode.doUninstall
        split
        · rfl
        · rename_i slot table hrem
          simp only [hrem] at ho
          simp [disposeSlot, ho]
      rw [hnet] at hd
      have hb := h.bound d hd
      rw [h.sound.occupant_remove app "link" ho] at hb
      exact hb
    | none =>
      unfold ShellNode.doUninstall at hd
      split at hd
      · rename_i hrem
        have hb := h.bound d hd
        have : (n.table.remove app).2 = n.table := by
          unfold SlotTable.remove at hrem ⊢
          cases hget : n.table.get app with
          | none => rfl
          | some slot => simp [hget] at hrem
        rw [this] at ho
        rw [ho] at hb
        exact hb
      · rename_i slot table hrem
        simp only [hrem] at ho
        simp only [disposeSlot, ho, if_true, Option.map_eq_some_iff] at hd
        obtain ⟨d', hd', rfl⟩ := hd
        exact ⟨rfl, (h.bound d' hd').2⟩

/-- The labels removed one after another. -/
def uninstallAll (apps : List String) (n : ShellNode) : ShellNode :=
  apps.foldl (fun n app => n.doUninstall app) n

theorem Kept.uninstallAll {n : ShellNode} (h : Kept n) (apps : List String) :
    Kept (n.uninstallAll apps) := by
  induction apps generalizing n with
  | nil => exact h
  | cons app apps ih => exact ih (h.doUninstall app)

theorem mem_uninstallAll {n : ShellNode} (h : Kept n) (apps : List String) (s : AppSlot) :
    s ∈ (n.uninstallAll apps).table.slots ↔ s ∈ n.table.slots ∧ s.label ∉ apps := by
  induction apps generalizing n with
  | nil => simp [uninstallAll]
  | cons app apps ih =>
    have := ih (h.doUninstall app)
    simp only [uninstallAll, List.foldl_cons] at this ⊢
    rw [this, table_doUninstall, mem_remove h.sound]
    simp [and_assoc]

theorem stage_uninstallAll (n : ShellNode) (apps : List String) :
    (n.uninstallAll apps).stage = n.stage := by
  induction apps generalizing n with
  | nil => rfl
  | cons app apps ih =>
    have := ih (n.doUninstall app)
    rw [stage_doUninstall] at this
    exact this

theorem store_uninstallAll (n : ShellNode) (apps : List String) :
    (n.uninstallAll apps).store = n.store := by
  induction apps generalizing n with
  | nil => rfl
  | cons app apps ih =>
    have := ih (n.doUninstall app)
    rw [store_doUninstall] at this
    exact this

/-- A removal neither reads nor writes the store. -/
theorem uninstallAll_store (n : ShellNode) (apps : List String) (store : FreshnessMarks) :
    uninstallAll apps { n with store := store } = { n.uninstallAll apps with store := store } := by
  induction apps generalizing n with
  | nil => rfl
  | cons app apps ih =>
    have hone : doUninstall app { n with store := store } =
        { n.doUninstall app with store := store } := by
      unfold doUninstall
      dsimp only
      split <;> rfl
    simp only [uninstallAll, List.foldl_cons] at ih ⊢
    rw [hone, ih]

/-- A revocation that returned: the author is refused from here on, and none of its slots is
left in the table. -/
theorem revoke_returned {n : ShellNode} {author : Bytes} {persists : Bool} {gone : List String}
    (h : (n.revoke author persists).1 = .ok gone) :
    ∃ store, n.store.revoke author persists = (.ok (), store) ∧
      (n.revoke author persists).2 =
        { n.uninstallAll (n.labelsOf author) with store := store } := by
  unfold revoke at h ⊢
  split at h
  · simp at h
  · rename_i store hs
    refine ⟨store, hs, ?_⟩
    rw [← uninstallAll_store]
    rfl

theorem revoke_threw {n : ShellNode} {author : Bytes} {persists : Bool} {e : String}
    (h : (n.revoke author persists).1 = .error e) : (n.revoke author persists).2 = n := by
  unfold revoke at h ⊢
  split at h
  · rename_i e' store hs
    rw [FreshnessMarks.revoke_error hs]
  · simp at h

theorem not_mem_labelsOf {n : ShellNode} (h : Kept n) {author : Bytes} {s : AppSlot}
    (hs : s ∈ (n.uninstallAll (n.labelsOf author)).table.slots) :
    s.verifiedBundle.author ≠ author := by
  rw [mem_uninstallAll h] at hs
  intro ha
  refine hs.2 (List.mem_map.2 ⟨s, ?_, rfl⟩)
  simpa [ha] using hs.1

theorem Kept.revoke {n : ShellNode} (h : Kept n) (author : Bytes) (persists : Bool) :
    Kept (n.revoke author persists).2 := by
  cases hr : (n.revoke author persists).1 with
  | error e =>
    rw [revoke_threw hr]
    exact h
  | ok gone =>
    obtain ⟨store, hs, heq⟩ := revoke_returned hr
    rw [heq]
    have hk := h.uninstallAll (n.labelsOf author)
    obtain ⟨hmarks, hrev⟩ := FreshnessMarks.revoke_ok hs
    have hstore := store_uninstallAll n (n.labelsOf author)
    refine ⟨hk.sound, hk.seated, hk.fits, hk.gone, fun s hmem => ?_, fun s hmem => ?_, hk.shut,
      hk.bound⟩
    · have := hk.marked s hmem
      rw [hstore] at this
      simpa only [FreshnessMarks.get, hmarks] using this
    · rw [hrev]
      rintro (hold | hnew)
      · have := hk.trusted s hmem
        rw [hstore] at this
        exact this hold
      · exact not_mem_labelsOf h hmem hnew

/-- Slots disposed one after another. -/
def disposeAll (slots : List AppSlot) (n : ShellNode) : ShellNode :=
  slots.foldl (fun n slot => n.disposeSlot slot.id) n

theorem disposeAll_eq (slots : List AppSlot) (n : ShellNode) :
    n.disposeAll slots = { n with slot := (n.disposeAll slots).slot } := by
  induction slots generalizing n with
  | nil => rfl
  | cons s slots ih =>
    have := ih (n.disposeSlot s.id)
    simp only [disposeAll, List.foldl_cons] at this ⊢
    rw [this]
    rfl

theorem slot_disposeAll (slots : List AppSlot) (n : ShellNode) (i : Nat) :
    (n.disposeAll slots).slot i = n.slot i ∧ (∀ s ∈ slots, s.id ≠ i) ∨
      ((n.disposeAll slots).slot i).Disposed ∧ ∃ s ∈ slots, s.id = i := by
  induction slots generalizing n with
  | nil => exact .inl ⟨rfl, by simp⟩
  | cons s slots ih =>
    have hone : (n.disposeSlot s.id).slot i = n.slot i ∧ s.id ≠ i ∨
        (n.disposeSlot s.id).slot i = (n.slot i).dispose ∧ s.id = i := by
      by_cases hi : i = s.id
      · subst hi
        exact .inr ⟨by simp [disposeSlot], rfl⟩
      · exact .inl ⟨by simp [disposeSlot, Function.update_of_ne hi], fun he => hi he.symm⟩
    rcases ih (n.disposeSlot s.id) with ⟨hsame, hno⟩ | ⟨hd, s', hs', hid⟩
    · rcases hone with ⟨hkeep, hne⟩ | ⟨hdisp, hid⟩
      · refine .inl ⟨hsame.trans hkeep, ?_⟩
        intro s' hs'
        rcases List.mem_cons.1 hs' with rfl | hs'
        · exact hne
        · exact hno s' hs'
      · refine .inr ⟨?_, s, List.mem_cons_self, hid⟩
        have : (n.disposeAll (s :: slots)).slot i = (n.slot i).dispose := hsame.trans hdisp
        rw [this]
        exact SlotState.disposed_dispose _
    · exact .inr ⟨hd, s', List.mem_cons_of_mem _ hs', hid⟩

theorem Kept.close {n : ShellNode} (h : Kept n) : Kept n.close := by
  set m : ShellNode :=
    { n with closed := true, netHost := n.netHost.map TransportHost.close, table := n.table.clear.2 }
    with hm
  have hclose : n.close = { m with slot := (m.disposeAll n.table.slots).slot } :=
    disposeAll_eq n.table.slots m
  rw [hclose]
  refine ⟨SlotTable.Sound.clear, by simp [hm, SlotTable.clear], fun i => ?_, fun i s hi => ?_,
    by simp [hm, SlotTable.clear], by simp [hm, SlotTable.clear], fun _ => rfl, fun d hd => ?_⟩
  · rcases slot_disposeAll n.table.slots m i with ⟨hsame, -⟩ | ⟨-, s, hs, rfl⟩
    · simp only [hsame]
      exact h.fits i
    · simp only [hm, (h.seated s hs).1]
      trivial
  · obtain ⟨hid, hgone⟩ := h.gone i s hi
    refine ⟨hid, fun _ => ?_⟩
    rcases slot_disposeAll n.table.slots m i with ⟨hsame, hno⟩ | ⟨hd, -⟩
    · simp only [hsame]
      exact hgone fun hs => hno s hs hid
    · exact hd
  · simp only [hm, Option.map_eq_some_iff] at hd
    obtain ⟨d', hd', rfl⟩ := hd
    refine ⟨?_, fun _ => rfl⟩
    have hocc : (n.table.clear.2).occupant "link" = none := by
      simp [SlotTable.clear, SlotTable.occupant]
    simp only [hm, hocc, Option.map_none]
    obtain ⟨hcall, hcl⟩ := h.bound d' hd'
    unfold TransportHost.close
    split
    · rename_i hc
      have hnil := h.shut (hcl hc)
      rw [hcall, Option.map_eq_none_iff, Option.eq_none_iff_forall_ne_some]
      intro s hs
      have := ((h.sound.booked .occupied "link" s).1 hs).1
      simp [hnil] at this
    · rfl

/-! ### Whole runs -/

theorem Kept.step {n : ShellNode} (h : Kept n) (opts : BootOptions) (e : ShellEvent) :
    Kept (n.step opts e) := by
  cases he : e.installOf with
  | some i =>
    rcases step_install opts n he with hid | how | ⟨c, store, hst, hg, hc⟩
    · rw [hid]
      exact h
    · exact h.ownStep how
    · rw [hc]
      exact h.ofHandover (h.handover hst hg)
  | none =>
    cases e with
    | uninstall app => exact h.doUninstall app
    | revoke author persists => exact h.revoke author persists
    | close => exact h.close
    | install i blob load bootTransport => simp [ShellEvent.installOf] at he
    | admitted i answer => simp [ShellEvent.installOf] at he
    | modulesLoaded i made => simp [ShellEvent.installOf] at he
    | realmStood i made persists => simp [ShellEvent.installOf] at he

theorem Kept.run {n : ShellNode} (h : Kept n) (opts : BootOptions) (es : List ShellEvent) :
    Kept (n.run opts es) := by
  induction es generalizing n with
  | nil => exact h
  | cons e es ih => exact ih (h.step opts e)

/-- What an install that resolved did in its last step, over the node as it found it. -/
structure Handed (n n' : ShellNode) (i : Nat) (slot : AppSlot) : Prop where
  /-- Its version is at least the mark found, and the mark is raised to it; no other moves. -/
  fresh : ∀ m, n.store.get slot.verifiedBundle.author slot.label = some m →
    m ≤ slot.verifiedBundle.manifest.version
  raised : n'.store.get slot.verifiedBundle.author slot.label =
    some slot.verifiedBundle.manifest.version
  otherMarks : ∀ author app, (author, app) ≠ (slot.verifiedBundle.author, slot.label) →
    n'.store.get author app = n.store.get author app
  /-- It is in the table with every claim of its manifest, and runs. -/
  seated : slot ∈ n'.table.slots
  booked : ∀ b, ∀ claim ∈ slot.claims b, (n'.table.books b).get claim = some slot
  runs : slot.id = i ∧ n'.slot i = .running
  driven : "link" ∈ slot.claims .occupied → ∀ d, n'.netHost = some d → d.call = some i
  /-- Whom it named is out of the table and of every book, and holds nothing. -/
  predecessor : ∀ c, n.stage i = .standing c → ∀ r, c.replacement = some r →
    r ∈ n.table.slots ∧ r ∉ n'.table.slots ∧
      (∀ b claim, (n'.table.books b).get claim ≠ some r) ∧ (n'.slot r.id).Disposed
  /-- Every other slot stays and runs on. -/
  others : ∀ c, n.stage i = .standing c → ∀ s ∈ n.table.slots, c.replacement ≠ some s →
    s ∈ n'.table.slots ∧ n'.slot s.id = n.slot s.id

theorem Handover.handed {n n' : ShellNode} {i : Nat} {c : Candidate} (h : Kept n)
    (hh : Handover n n' i c) : Handed n n' i ⟨i, c.loaded⟩ := by
  have hk := h.ofHandover hh
  have hmem : ∀ s, s ∈ n'.table.slots ↔
      s = ⟨i, c.loaded⟩ ∨ s ∈ n.table.slots ∧ c.replacement ≠ some s := by
    intro s
    rw [hh.table]
    exact mem_commit h.sound hh.admitted.standing
  have hseat : (⟨i, c.loaded⟩ : AppSlot) ∈ n'.table.slots := (hmem _).2 (.inl rfl)
  refine
    { fresh := hh.fresh
      raised := hh.raised
      otherMarks := hh.otherMarks
      seated := hseat
      booked := fun b claim hc => (hk.sound.booked b claim _).2 ⟨hseat, hc⟩
      runs := ⟨rfl, hh.runs⟩
      driven := fun hc d hd => ?_
      predecessor := fun c' hc' r hr => ?_
      others := fun c' hc' s hs hcs => ?_ }
  · have hocc : n'.table.occupant "link" = some ⟨i, c.loaded⟩ :=
      (hk.sound.booked .occupied "link" _).2 ⟨hseat, hc⟩
    rw [(hk.bound d hd).1, hocc]
    rfl
  · obtain rfl : c = c' := by simpa using hh.was.symm.trans hc'
    have hout : r ∉ n'.table.slots := by
      rw [hmem]
      rintro (rfl | ⟨-, hne⟩)
      · exact (hh.disposed _ hr).1 rfl
      · exact hne hr
    exact ⟨hh.admitted.standing r hr, hout,
      fun b claim hb => hout ((hk.sound.booked b claim r).1 hb).1, (hh.disposed r hr).2⟩
  · obtain rfl : c = c' := by simpa using hh.was.symm.trans hc'
    have hin : s ∈ n'.table.slots := (hmem s).2 (.inr ⟨hs, hcs⟩)
    exact ⟨hin, (hk.seated s hin).2.trans (h.seated s hs).2.symm⟩

@[simp] theorem stage_revoke (n : ShellNode) (author : Bytes) (persists : Bool) :
    (n.revoke author persists).2.stage = n.stage := by
  cases hr : (n.revoke author persists).1 with
  | error e => rw [revoke_threw hr]
  | ok gone =>
    obtain ⟨store, -, heq⟩ := revoke_returned hr
    rw [heq]
    exact stage_uninstallAll n _

@[simp] theorem stage_close (n : ShellNode) : n.close.stage = n.stage := by
  have := disposeAll_eq n.table.slots
    { n with closed := true, netHost := n.netHost.map TransportHost.close, table := n.table.clear.2 }
  have hstage := congrArg ShellNode.stage this
  exact hstage

@[simp] theorem store_close (n : ShellNode) : n.close.store = n.store := by
  have := disposeAll_eq n.table.slots
    { n with closed := true, netHost := n.netHost.map TransportHost.close, table := n.table.clear.2 }
  have hstore := congrArg ShellNode.store this
  exact hstore

/-- An install resolves by a handover of its own, and stays resolved. -/
theorem Kept.stage_step {n : ShellNode} (h : Kept n) (opts : BootOptions) (e : ShellEvent) (i : Nat)
    (slot : AppSlot) :
    (n.stage i = .resolved slot → (n.step opts e).stage i = .resolved slot) ∧
      ((n.step opts e).stage i = .resolved slot → n.stage i = .resolved slot ∨
        ∃ c, Handover n (n.step opts e) i c ∧ slot = ⟨i, c.loaded⟩) := by
  cases he : e.installOf with
  | some j =>
    rcases step_install opts n he with hid | how | ⟨c, store, hst, hg, hc⟩
    · rw [hid]
      exact ⟨id, .inl⟩
    · obtain ⟨hwas, stage, s, heq, hnot, -⟩ := how
      rw [heq]
      simp only [move]
      by_cases hij : i = j
      · subst hij
        rw [Function.update_self]
        constructor
        · intro hr
          rw [hr] at hwas
          exact hwas.elim
        · rintro rfl
          exact absurd trivial hnot
      · rw [Function.update_of_ne hij]
        exact ⟨id, .inl⟩
    · rw [hc]
      have hh := h.handover hst hg
      by_cases hij : i = j
      · subst hij
        simp only [stage_commit, Function.update_self, Stage.resolved.injEq]
        constructor
        · intro hr
          rw [hr] at hst
          simp at hst
        · rintro rfl
          exact .inr ⟨c, hh, rfl⟩
      · rw [stage_commit, Function.update_of_ne hij]
        exact ⟨id, .inl⟩
  | none =>
    cases e with
    | uninstall app =>
      rw [show (n.step opts (.uninstall app)).stage = n.stage from stage_doUninstall n app]
      exact ⟨id, .inl⟩
    | revoke author persists =>
      rw [show (n.step opts (.revoke author persists)).stage = n.stage from
        stage_revoke n author persists]
      exact ⟨id, .inl⟩
    | close =>
      rw [show (n.step opts .close).stage = n.stage from stage_close n]
      exact ⟨id, .inl⟩
    | install i blob load bootTransport => simp [ShellEvent.installOf] at he
    | admitted i answer => simp [ShellEvent.installOf] at he
    | modulesLoaded i made => simp [ShellEvent.installOf] at he
    | realmStood i made persists => simp [ShellEvent.installOf] at he

theorem Kept.resolved_run {n : ShellNode} (h : Kept n) (opts : BootOptions) (es : List ShellEvent)
    {i : Nat} {slot : AppSlot} (hr : n.stage i = .resolved slot) :
    (n.run opts es).stage i = .resolved slot := by
  induction es generalizing n with
  | nil => exact hr
  | cons e es ih => exact ih (h.step opts e) ((h.stage_step opts e i slot).1 hr)

/-- A revoked author stays revoked. -/
theorem Kept.revoked_step {n : ShellNode} (h : Kept n) (opts : BootOptions) (e : ShellEvent)
    {author : Bytes} (ha : author ∈ n.store.revoked) : author ∈ (n.step opts e).store.revoked := by
  cases he : e.installOf with
  | some j =>
    rcases step_install opts n he with hid | how | ⟨c, store, hst, hg, hc⟩
    · rwa [hid]
    · obtain ⟨-, stage, s, heq, -⟩ := how
      rwa [heq]
    · rw [hc, (h.handover hst hg).revoked]
      exact ha
  | none =>
    cases e with
    | uninstall app => simpa only [ShellNode.step, store_doUninstall] using ha
    | revoke author' persists =>
      simp only [ShellNode.step]
      cases hr : (n.revoke author' persists).1 with
      | error err => rwa [revoke_threw hr]
      | ok gone =>
        obtain ⟨store, hs, heq⟩ := revoke_returned hr
        rw [heq]
        exact ((FreshnessMarks.revoke_ok hs).2 author).2 (.inl ha)
    | close => simpa only [ShellNode.step, store_close] using ha
    | install i blob load bootTransport => simp [ShellEvent.installOf] at he
    | admitted i answer => simp [ShellEvent.installOf] at he
    | modulesLoaded i made => simp [ShellEvent.installOf] at he
    | realmStood i made persists => simp [ShellEvent.installOf] at he

/-- No install of a revoked author resolves. -/
theorem Kept.refused_run {n : ShellNode} (h : Kept n) (opts : BootOptions) (es : List ShellEvent)
    {author : Bytes} (ha : author ∈ n.store.revoked) {i : Nat} {slot : AppSlot}
    (hs : slot.verifiedBundle.author = author) (hr : (n.run opts es).stage i = .resolved slot) :
    author ∈ (n.run opts es).store.revoked ∧ n.stage i = .resolved slot := by
  induction es generalizing n with
  | nil => exact ⟨ha, hr⟩
  | cons e es ih =>
    obtain ⟨hrev, hst⟩ := ih (h.step opts e) (h.revoked_step opts e ha) hr
    refine ⟨hrev, ?_⟩
    rcases (h.stage_step opts e i slot).2 hst with hold | ⟨c, hh, rfl⟩
    · exact hold
    · exact absurd (hs ▸ ha) hh.trusted

theorem Kept.revoked_run {n : ShellNode} (h : Kept n) (opts : BootOptions) (es : List ShellEvent)
    {author : Bytes} (ha : author ∈ n.store.revoked) :
    author ∈ (n.run opts es).store.revoked := by
  induction es generalizing n with
  | nil => exact ha
  | cons e es ih => exact ih (h.step opts e) (h.revoked_step opts e ha)

/-- A slot that is not in the table is not active. -/
theorem Kept.inactive {n : ShellNode} (h : Kept n) {i : Nat}
    (hout : ∀ s ∈ n.table.slots, s.id ≠ i) : (n.slot i).active = false := by
  have hf := h.fits i
  cases hst : n.stage i with
  | resolved s =>
    obtain ⟨hid, hgone⟩ := h.gone i s hst
    exact (hgone fun hs => hout s hs hid).1
  | rejected reason =>
    rw [hst] at hf
    exact hf.1
  | standing c =>
    rw [hst] at hf
    rw [show n.slot i = .newSlot from hf]
    rfl
  | idle =>
    rw [hst] at hf
    rw [show n.slot i = .unborn from hf]
    rfl
  | admitting c =>
    rw [hst] at hf
    rw [show n.slot i = .unborn from hf]
    rfl
  | loading c =>
    rw [hst] at hf
    rw [show n.slot i = .unborn from hf]
    rfl

/-! ### An install that leaves no trace -/

/-- Two nodes that differ in nothing but one install and its slot. -/
structure Apart (i : Nat) (n m : ShellNode) : Prop where
  table : n.table = m.table
  store : n.store = m.store
  netHost : n.netHost = m.netHost
  closed : n.closed = m.closed
  slots : ∀ j, j ≠ i → n.slot j = m.slot j
  stages : ∀ j, j ≠ i → n.stage j = m.stage j

theorem Apart.refl (i : Nat) (n : ShellNode) : Apart i n n :=
  ⟨rfl, rfl, rfl, rfl, fun _ _ => rfl, fun _ _ => rfl⟩

theorem update_apart {α : Type} {i j k : Nat} {f g : Nat → α} (h : ∀ j, j ≠ i → f j = g j) (a : α)
    (hk : k ≠ i) : Function.update f j a k = Function.update g j a k := by
  by_cases hkj : k = j
  · subst hkj
    simp
  · simp [hkj, h k hk]

theorem Apart.move {i : Nat} {n m : ShellNode} (h : Apart i n m) (j : Nat) (stage : Stage)
    (slot : SlotState) : Apart i (n.move j stage slot) (m.move j stage slot) :=
  ⟨h.table, h.store, h.netHost, h.closed, fun _ hk => update_apart h.slots slot hk,
    fun _ hk => update_apart h.stages stage hk⟩

theorem Apart.move_left {i : Nat} {n m : ShellNode} (h : Apart i n m) (stage : Stage)
    (slot : SlotState) : Apart i (n.move i stage slot) m :=
  ⟨h.table, h.store, h.netHost, h.closed,
    fun j hj => (Function.update_of_ne hj _ _).trans (h.slots j hj),
    fun j hj => (Function.update_of_ne hj _ _).trans (h.stages j hj)⟩

theorem Apart.disposeSlot {i : Nat} {n m : ShellNode} (h : Apart i n m) (j : Nat) :
    Apart i (n.disposeSlot j) (m.disposeSlot j) := by
  refine ⟨h.table, h.store, h.netHost, h.closed, fun k hk => ?_, h.stages⟩
  by_cases hkj : k = j
  · subst hkj
    simp [ShellNode.disposeSlot, h.slots k hk]
  · simp [ShellNode.disposeSlot, hkj, h.slots k hk]

theorem Apart.disposeAll {i : Nat} {n m : ShellNode} (h : Apart i n m) (slots : List AppSlot) :
    Apart i (n.disposeAll slots) (m.disposeAll slots) := by
  induction slots generalizing n m with
  | nil => exact h
  | cons s slots ih => exact ih (h.disposeSlot s.id)

theorem Apart.commit {i : Nat} {n m : ShellNode} (h : Apart i n m) {j : Nat} (hj : j ≠ i)
    (c : Candidate) (store : FreshnessMarks) :
    Apart i (n.commit j c store) (m.commit j c store) := by
  have base : Apart i
      { n with
        table := n.table.commit ⟨j, c.loaded⟩ c.replacement
        store := store
        netHost := rebind ⟨j, c.loaded⟩ (n.table.commit ⟨j, c.loaded⟩ c.replacement) n.netHost
        slot := Function.update n.slot j { n.slot j with realm := .live, active := true }
        stage := Function.update n.stage j (.resolved ⟨j, c.loaded⟩) }
      { m with
        table := m.table.commit ⟨j, c.loaded⟩ c.replacement
        store := store
        netHost := rebind ⟨j, c.loaded⟩ (m.table.commit ⟨j, c.loaded⟩ c.replacement) m.netHost
        slot := Function.update m.slot j { m.slot j with realm := .live, active := true }
        stage := Function.update m.stage j (.resolved ⟨j, c.loaded⟩) } := by
    refine ⟨by simp only [h.table], rfl, by simp only [h.table, h.netHost], h.closed, fun k hk => ?_,
      fun k hk => update_apart h.stages _ hk⟩
    rw [h.slots j hj]
    exact update_apart h.slots _ hk
  unfold ShellNode.commit
  cases hc : c.replacement with
  | none =>
    rw [hc] at base
    exact base
  | some r =>
    rw [hc] at base
    exact base.disposeSlot r.id

theorem Apart.doUninstall {i : Nat} {n m : ShellNode} (h : Apart i n m) (app : String) :
    Apart i (n.doUninstall app) (m.doUninstall app) := by
  unfold ShellNode.doUninstall
  rw [h.table]
  split
  · exact h
  · rename_i slot table hrem
    refine Apart.disposeSlot ?_ slot.id
    exact ⟨rfl, h.store, by simp only [h.netHost], h.closed, h.slots, h.stages⟩

theorem Apart.uninstallAll {i : Nat} {n m : ShellNode} (h : Apart i n m) (apps : List String) :
    Apart i (n.uninstallAll apps) (m.uninstallAll apps) := by
  induction apps generalizing n m with
  | nil => exact h
  | cons app apps ih => exact ih (h.doUninstall app)

theorem Apart.revoke {i : Nat} {n m : ShellNode} (h : Apart i n m) (author : Bytes)
    (persists : Bool) : Apart i (n.revoke author persists).2 (m.revoke author persists).2 := by
  unfold ShellNode.revoke
  rw [h.store]
  split
  · exact ⟨h.table, rfl, h.netHost, h.closed, h.slots, h.stages⟩
  · rename_i store hs
    have hl : n.labelsOf author = m.labelsOf author := by simp only [labelsOf, h.table]
    rw [hl]
    refine Apart.uninstallAll ?_ (m.labelsOf author)
    exact ⟨h.table, rfl, h.netHost, h.closed, h.slots, h.stages⟩

theorem Apart.close {i : Nat} {n m : ShellNode} (h : Apart i n m) : Apart i n.close m.close := by
  have base : Apart i
      { n with
        closed := true
        netHost := n.netHost.map TransportHost.close
        table := n.table.clear.2 }
      { m with
        closed := true
        netHost := m.netHost.map TransportHost.close
        table := m.table.clear.2 } :=
    ⟨by simp only [h.table], h.store, by simp only [h.netHost], rfl, h.slots, h.stages⟩
  have := base.disposeAll n.table.clear.1
  unfold ShellNode.close
  rw [← h.table]
  rw [← h.table] at this
  exact this

theorem Apart.checkInstallation {i : Nat} {n m : ShellNode} (h : Apart i n m) (c : Candidate) :
    n.checkInstallation c = m.checkInstallation c := by
  simp only [ShellNode.checkInstallation, h.closed, h.table]

theorem Apart.prepare {i : Nat} {n m : ShellNode} (h : Apart i n m) {j : Nat} (hj : j ≠ i)
    (c : Candidate) : Apart i (n.prepare j c) (m.prepare j c) := by
  unfold ShellNode.prepare
  rw [h.checkInstallation, h.slots j hj]
  split
  · exact h.move j _ _
  · exact h.move j _ _

/-- What others do does not depend on one install that has not resolved. -/
theorem Apart.step {i : Nat} {n m : ShellNode} (h : Apart i n m) (opts : BootOptions)
    {e : ShellEvent} (he : e.installOf ≠ some i) : Apart i (n.step opts e) (m.step opts e) := by
  cases e with
  | install j blob load bootTransport =>
    have hj : j ≠ i := fun hji => he (congrArg some hji)
    have hv : n.verify opts blob load bootTransport = m.verify opts blob load bootTransport := by
      simp only [verify, h.table, h.store]
    simp only [ShellNode.step]
    rw [h.stages j hj, hv, h.slots j hj]
    split
    · split
      · exact h.move j _ _
      · split
        · exact h.prepare hj _
        · exact h.move j _ _
    · exact h
  | admitted j answer =>
    have hj : j ≠ i := fun hji => he (congrArg some hji)
    simp only [ShellNode.step]
    rw [h.stages j hj, h.slots j hj]
    split
    · split
      · exact h.move j _ _
      · exact h.move j _ _
      · exact h.prepare hj _
    · exact h
  | modulesLoaded j made =>
    have hj : j ≠ i := fun hji => he (congrArg some hji)
    simp only [ShellNode.step]
    rw [h.stages j hj, h.slots j hj]
    split
    · split
      · exact h.move j _ _
      · exact h.move j _ _
    · exact h
  | realmStood j made persists =>
    have hj : j ≠ i := fun hji => he (congrArg some hji)
    have hg : ∀ c, n.gates c made persists = m.gates c made persists := by
      intro c
      simp only [gates, h.store, h.checkInstallation]
    simp only [ShellNode.step]
    rw [h.stages j hj, h.slots j hj]
    split
    · rw [hg]
      split
      · refine Apart.move ?_ j _ _
        exact ⟨h.table, rfl, h.netHost, h.closed, h.slots, h.stages⟩
      · exact h.commit hj _ _
    · exact h
  | uninstall app => exact h.doUninstall app
  | revoke author persists => exact h.revoke author persists
  | close => exact h.close

/-- A run without one install. -/
def without (i : Nat) (es : List ShellEvent) : List ShellEvent :=
  es.filter fun e => e.installOf ≠ some i

/-- An install that rejects leaves the node as the run without it does. -/
theorem Apart.run {i : Nat} {n m : ShellNode} (h : Apart i n m) (hn : Kept n) (opts : BootOptions)
    (es : List ShellEvent) (hr : ¬ ((n.run opts es).stage i).Resolved) :
    Apart i (n.run opts es) (m.run opts (without i es)) := by
  induction es generalizing n m with
  | nil => exact h
  | cons e es ih =>
    have hk := hn.step opts e
    by_cases he : e.installOf = some i
    · have hskip : without i (e :: es) = without i es := by simp [without, he]
      rw [hskip]
      refine ih ?_ hk hr
      rcases step_install opts n he with hid | how | ⟨c, store, -, -, hc⟩
      · rw [hid]
        exact h
      · obtain ⟨-, stage, slot, heq, -⟩ := how
        rw [heq]
        exact h.move_left stage slot
      · refine absurd ?_ hr
        have hst : (n.step opts e).stage i = .resolved ⟨i, c.loaded⟩ := by simp [hc]
        rw [show n.run opts (e :: es) = (n.step opts e).run opts es from rfl,
          hk.resolved_run opts es hst]
        trivial
    · have hkeep : without i (e :: es) = e :: without i es := by simp [without, he]
      rw [hkeep]
      exact ih (h.step opts he) hk hr

/-- Installs are atomic under every interleaving of installs, removals, revocations and the
close, whatever of their steps fails. -/
theorem install_atomic (opts : BootOptions) (maxSlots : Nat) (store : FreshnessMarks) (hasNet : Bool)
    (es : List ShellEvent) :
    let n := (boot maxSlots store hasNet).run opts es
    -- a rejected one leaves the node as if it had never been asked for, and holds nothing
    (∀ i reason, n.stage i = .rejected reason → (n.slot i).Disposed ∧
        Apart i n ((boot maxSlots store hasNet).run opts (without i es))) ∧
      -- a resolved one did all of its work in the step that resolved it
      (∀ e i slot, (n.step opts e).stage i = .resolved slot →
        n.stage i = .resolved slot ∨ Handed n (n.step opts e) i slot) ∧
      -- from a revocation on, nothing of that author runs or is committed
      (∀ author persists gone, (n.revoke author persists).1 = .ok gone → ∀ later,
        let m := (n.revoke author persists).2.run opts later
        (∀ s ∈ m.table.slots, s.verifiedBundle.author ≠ author) ∧
          ∀ i slot, m.stage i = .resolved slot → slot.verifiedBundle.author = author →
            (m.slot i).active = false ∧ n.stage i = .resolved slot) ∧
      -- a candidate's host calls are refused
      (∀ i, ¬ (n.stage i).Resolved → ∀ fullSeam name payload,
        n.seam fullSeam i name payload =
          .error ("shell: '" ++ name ++ "' is refused until this bundle's installation commits")) ∧
      -- what runs under a label is at its author's mark
      ∀ s ∈ n.table.slots, n.store.get s.verifiedBundle.author s.label =
        some s.verifiedBundle.manifest.version := by
  intro n
  have h : Kept n := (kept_boot maxSlots store hasNet).run opts es
  refine ⟨fun i reason hi => ?_, fun e i slot hs => ?_, fun author persists gone hr later => ?_,
    fun i hi fullSeam name payload => ?_, h.marked⟩
  · have hf := h.fits i
    rw [hi] at hf
    refine ⟨hf, (Apart.refl i _).run (kept_boot maxSlots store hasNet) opts es ?_⟩
    have : ((boot maxSlots store hasNet).run opts es).stage i = .rejected reason := hi
    rw [this]
    exact id
  · rcases (h.stage_step opts e i slot).2 hs with hold | ⟨c, hh, rfl⟩
    · exact .inl hold
    · exact .inr (hh.handed h)
  · have hk := h.revoke author persists
    have hrev : author ∈ (n.revoke author persists).2.store.revoked := by
      obtain ⟨store', hs, heq⟩ := revoke_returned hr
      rw [heq]
      exact ((FreshnessMarks.revoke_ok hs).2 author).2 (.inr rfl)
    have hm := hk.run opts later
    have hout : ∀ s ∈ ((n.revoke author persists).2.run opts later).table.slots,
        s.verifiedBundle.author ≠ author := by
      rintro s hs rfl
      exact hm.trusted s hs (hk.revoked_run opts later hrev)
    refine ⟨hout, fun i slot hi ha => ⟨?_, ?_⟩⟩
    · obtain ⟨-, hgone⟩ := hm.gone i slot hi
      exact (hgone fun hs => hout slot hs ha).1
    · have := (hk.refused_run opts later hrev ha hi).2
      rwa [stage_revoke] at this
  · have hoff : (n.slot i).active = false := by
      refine h.inactive fun s hs hid => hi ?_
      rw [← hid, (h.seated s hs).1]
      trivial
    simp [seam, hoff]

/-- Two versions of one app, for the race below. -/
def chatBundle (version : Nat) : LoadedBundle :=
  ⟨⟨"chat", version, ["timer"], some ["chat"], none⟩, [7]⟩

def chatOptions : BootOptions where
  verifyBundle blob :=
    match blob with
    | [v] => .ok (chatBundle v.toNat)
    | _ => .error "bundle: bad signature"
  realmMemoryBytes := none
  guestDeadlineMs := none

def plainInstall : InstallOptions := ⟨none, .absent, none, none⟩

/-- Both are asked for, admitted and loaded side by side; the newer one commits first. -/
def race : List ShellEvent :=
  [.install 0 [1] plainInstall false, .install 1 [2] plainInstall false, .admitted 0 (.ok true),
    .admitted 1 (.ok true), .modulesLoaded 0 (.ok ()), .modulesLoaded 1 (.ok ()),
    .realmStood 1 (.ok ()) true, .realmStood 0 (.ok ()) true]

/-- The older of two racing versions is refused at its commit and leaves no trace. -/
theorem install_atomic_race :
    ∃ reason, ((boot 8 ⟨.empty, []⟩ false).run chatOptions race).stage 0 = .rejected reason ∧
      (((boot 8 ⟨.empty, []⟩ false).run chatOptions race).slot 0).Disposed ∧
      ((boot 8 ⟨.empty, []⟩ false).run chatOptions race).stage 1 = .resolved ⟨1, chatBundle 2⟩ ∧
      Apart 0 ((boot 8 ⟨.empty, []⟩ false).run chatOptions race)
        ((boot 8 ⟨.empty, []⟩ false).run chatOptions (without 0 race)) := by
  have hr : ((boot 8 ⟨.empty, []⟩ false).run chatOptions race).stage 0 =
      .rejected ("bundle: version 1 is below the (author, app) freshness high-water mark 2" ++
        " — downgrade refused") := by
    decide +kernel
  have h := (install_atomic chatOptions 8 ⟨.empty, []⟩ false race).1 0 _ hr
  exact ⟨_, hr, h.1, by decide +kernel, h.2⟩

end ShellNode

end SeedTransport
