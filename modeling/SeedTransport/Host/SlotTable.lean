import SeedTransport.Util
import SeedTransport.Lib.OrdMap

set_option autoImplicit false

namespace SeedTransport

/-! The installed slots and the three claim books that route to them (`slot-table.ts`). -/

/-- The host's services, each with whether its events go to one occupant. -/
def HOST_SERVICES : List (String × Bool) :=
  [("node", false), ("fs", false), ("timer", false), ("link", true), ("host", false)]

def isOccupiedService (name : String) : Bool := HOST_SERVICES.contains (name, true)

/-- What installation reads of a manifest. -/
structure BundleManifest where
  app : String
  version : Nat
  requires : List String
  protocols : Option (List String)
  services : Option (List String)
  deriving DecidableEq

/-- `reachesLink` -/
def BundleManifest.reachesLink (m : BundleManifest) : Bool := m.requires.contains "link"

structure LoadedBundle where
  manifest : BundleManifest
  author : Bytes
  deriving DecidableEq

/-- A slot of the node: an object of its own, told from others by `id`. -/
structure AppSlot where
  id : Nat
  verifiedBundle : LoadedBundle
  deriving DecidableEq

inductive Book where
  | occupied
  | peer
  | locals
  deriving DecidableEq

/-- The signed list a book is derived from. -/
def Book.names (b : Book) (m : BundleManifest) : List String :=
  match b with
  | .occupied => m.requires.filter isOccupiedService
  | .peer => m.protocols.getD []
  | .locals => m.services.getD []

def Book.audience : Book → String
  | .occupied => "requires"
  | .peer => "protocols"
  | .locals => "services"

/-- The books in the order they are checked. -/
def booksOf : List Book := [.occupied, .peer, .locals]

structure SlotTable where
  maxSlots : Nat
  slots : List AppSlot
  books : Book → OrdMap String AppSlot

def AppSlot.label (s : AppSlot) : String := s.verifiedBundle.manifest.app

def AppSlot.claims (s : AppSlot) (b : Book) : List String := b.names s.verifiedBundle.manifest

namespace SlotTable

def create (maxSlots : Nat) : SlotTable := ⟨maxSlots, [], fun _ => .empty⟩

def get (t : SlotTable) (app : String) : Option AppSlot := t.slots.find? fun s => s.label == app

def occupant (t : SlotTable) (service : String) : Option AppSlot := (t.books .occupied).get service

/-- A book without the claims of `names` that `slot` holds. -/
def releaseFrom (slot : AppSlot) : List String → OrdMap String AppSlot → OrdMap String AppSlot
  | [], book => book
  | claim :: names, book =>
    releaseFrom slot names (if book.get claim = some slot then book.delete claim else book)

def release (slot : AppSlot) (t : SlotTable) : SlotTable :=
  { t with books := fun b => releaseFrom slot (slot.claims b) (t.books b) }

/-- The check of one claim of a candidate. -/
def refuseClaim (t : SlotTable) (replacement : Option AppSlot) (selected : Bool) (b : Book)
    (claim : String) : Except String Unit :=
  match (t.books b).get claim with
  | some claimant =>
    if replacement = some claimant then .ok ()
    else .error ("shell: " ++ b.audience ++ " claim '" ++ claim ++ "' is already held by '" ++
      claimant.label ++ "' — install with \x7b replaces: '" ++ claimant.label ++
      "' \x7d to take it over")
  | none =>
    if b = .occupied ∧ selected = false then
      .error ("shell: \"" ++ claim ++ "\" is taken only by the boot's transport selection, or by " ++
        "an install replacing its current holder")
    else .ok ()

/-- A replacement may have left while the candidate was loading. -/
def refuseStale (t : SlotTable) (replacement : Option AppSlot) : Except String Unit :=
  match replacement with
  | some r =>
    if r ∈ t.slots then .ok ()
    else .error "shell: replacement target changed while the candidate was loading"
  | none => .ok ()

/-- One slot per label, whoever authored it. -/
def refuseLabel (t : SlotTable) (replacement : Option AppSlot) (app : String) : Except String Unit :=
  match t.get app with
  | some installed =>
    if replacement = some installed then .ok ()
    else .error ("shell: '" ++ app ++ "' is already installed — install with \x7b replaces: '" ++
      app ++ "' \x7d to take over its slot")
  | none => .ok ()

def refuseFull (t : SlotTable) (replacement : Option AppSlot) : Except String Unit :=
  if replacement = none ∧ t.maxSlots ≤ t.slots.length then
    .error ("shell: this node already holds its " ++ toString t.maxSlots ++
      " app slots — uninstall one before installing another")
  else .ok ()

def refuseConflicts (t : SlotTable) (loaded : LoadedBundle) (replacement : Option AppSlot)
    (selected : Bool) : Except String Unit := do
  t.refuseStale replacement
  t.refuseLabel replacement loaded.manifest.app
  booksOf.forM fun b => (b.names loaded.manifest).forM (t.refuseClaim replacement selected b)
  t.refuseFull replacement

/-- The slots with the one at a place replaced. -/
def replaceSlot (old new : AppSlot) : List AppSlot → List AppSlot
  | [] => []
  | s :: ss => if s = old then new :: ss else s :: replaceSlot old new ss

/-- A book with every claim of `names` set to `slot`. -/
def claimIn (slot : AppSlot) (names : List String) (book : OrdMap String AppSlot) :
    OrdMap String AppSlot :=
  names.foldl (fun book claim => book.set claim slot) book

def commit (slot : AppSlot) (replacement : Option AppSlot) (t : SlotTable) : SlotTable :=
  let t' : SlotTable :=
    match replacement with
    | some r => { release r t with slots := replaceSlot r slot t.slots }
    | none => { t with slots := t.slots ++ [slot] }
  { t' with books := fun b => claimIn slot (slot.claims b) (t'.books b) }

def remove (app : String) (t : SlotTable) : Option AppSlot × SlotTable :=
  match t.get app with
  | none => (none, t)
  | some slot => (some slot, release slot { t with slots := t.slots.erase slot })

def clear (t : SlotTable) : List AppSlot × SlotTable :=
  (t.slots, { t with slots := [], books := fun _ => .empty })

/-! ### What holds of a table -/

/-- The books are what the installed manifests say. -/
structure Sound (t : SlotTable) : Prop where
  labels : (t.slots.map AppSlot.label).Nodup
  capped : t.slots.length ≤ t.maxSlots
  booked : ∀ b claim s, (t.books b).get claim = some s ↔ s ∈ t.slots ∧ claim ∈ s.claims b

theorem Sound.nodup {t : SlotTable} (h : Sound t) : t.slots.Nodup := h.labels.of_map

/-- No claim of one book has two owners. -/
theorem Sound.one_owner {t : SlotTable} (h : Sound t) {b : Book} {claim : String} {s s' : AppSlot}
    (hs : s ∈ t.slots) (hc : claim ∈ s.claims b) (hs' : s' ∈ t.slots) (hc' : claim ∈ s'.claims b) :
    s = s' := by
  have h1 := (h.booked b claim s).2 ⟨hs, hc⟩
  have h2 := (h.booked b claim s').2 ⟨hs', hc'⟩
  exact Option.some.inj (h1.symm.trans h2)

theorem Sound.label_inj {t : SlotTable} (h : Sound t) {s s' : AppSlot} (hs : s ∈ t.slots)
    (hs' : s' ∈ t.slots) (hl : s.label = s'.label) : s = s' :=
  List.inj_on_of_nodup_map h.labels hs hs' hl

theorem get_some {t : SlotTable} {app : String} {s : AppSlot} (h : t.get app = some s) :
    s ∈ t.slots ∧ s.label = app :=
  ⟨List.mem_of_find?_eq_some h, by simpa using List.find?_some h⟩

theorem get_none {t : SlotTable} {app : String} (h : t.get app = none) :
    ∀ s ∈ t.slots, s.label ≠ app := by
  intro s hs hl
  have := List.find?_eq_none.1 h s hs
  simp [hl] at this

/-- Releasing takes exactly the claims the slot holds. -/
theorem get_releaseFrom (slot : AppSlot) (names : List String) (book : OrdMap String AppSlot)
    (claim : String) :
    (releaseFrom slot names book).get claim =
      if claim ∈ names ∧ book.get claim = some slot then none else book.get claim := by
  induction names generalizing book with
  | nil => simp [releaseFrom]
  | cons c names ih =>
    rw [releaseFrom, ih]
    by_cases hc : claim = c
    · subst hc
      by_cases hb : book.get claim = some slot
      · simp [hb, OrdMap.get_delete]
      · simp [hb]
    · by_cases hb : book.get c = some slot
      · simp [hb, hc, OrdMap.get_delete]
      · simp [hb, hc]

theorem get_claimIn (slot : AppSlot) (names : List String) (book : OrdMap String AppSlot)
    (claim : String) :
    (claimIn slot names book).get claim = if claim ∈ names then some slot else book.get claim := by
  unfold claimIn
  induction names generalizing book with
  | nil => simp
  | cons c names ih =>
    rw [List.foldl_cons, ih]
    by_cases hc : claim = c
    · subst hc
      simp
    · simp [hc, OrdMap.get_set]

/-- What is left of the books behind a released slot. -/
theorem Sound.released {t : SlotTable} (h : Sound t) {r : AppSlot} (hr : r ∈ t.slots) (b : Book)
    (claim : String) (s : AppSlot) :
    ((release r t).books b).get claim = some s ↔ (s ∈ t.slots ∧ s ≠ r) ∧ claim ∈ s.claims b := by
  simp only [release, get_releaseFrom]
  have hs := h.booked b claim s
  by_cases hheld : claim ∈ r.claims b ∧ (t.books b).get claim = some r
  · rw [if_pos hheld]
    refine ⟨by simp, ?_⟩
    rintro ⟨⟨hmem, hne⟩, hc⟩
    exact absurd (h.one_owner hmem hc hr hheld.1) hne
  · rw [if_neg hheld, hs]
    constructor
    · rintro ⟨hmem, hc⟩
      refine ⟨⟨hmem, ?_⟩, hc⟩
      rintro rfl
      exact hheld ⟨hc, (h.booked b claim s).2 ⟨hmem, hc⟩⟩
    · rintro ⟨⟨hmem, _⟩, hc⟩
      exact ⟨hmem, hc⟩

theorem mem_replaceSlot {old new s : AppSlot} {ss : List AppSlot} (hn : ss.Nodup) (ho : old ∈ ss) :
    s ∈ replaceSlot old new ss ↔ s = new ∨ s ∈ ss ∧ s ≠ old := by
  induction ss with
  | nil => simp at ho
  | cons a ss ih =>
    rw [List.nodup_cons] at hn
    unfold replaceSlot
    by_cases ha : a = old
    · subst ha
      simp only [if_true, List.mem_cons]
      constructor
      · rintro (rfl | hs)
        · exact .inl rfl
        · exact .inr ⟨.inr hs, fun he => hn.1 (he ▸ hs)⟩
      · rintro (rfl | ⟨rfl | hs, hne⟩)
        · exact .inl rfl
        · exact absurd rfl hne
        · exact .inr hs
    · have ho' : old ∈ ss := (List.mem_cons.1 ho).resolve_left fun he => ha he.symm
      simp only [ha, if_false, List.mem_cons, ih hn.2 ho']
      constructor
      · rintro (rfl | rfl | ⟨hs, hne⟩)
        · exact .inr ⟨.inl rfl, ha⟩
        · exact .inl rfl
        · exact .inr ⟨.inr hs, hne⟩
      · rintro (rfl | ⟨rfl | hs, hne⟩)
        · exact .inr (.inl rfl)
        · exact .inl rfl
        · exact .inr (.inr ⟨hs, hne⟩)

theorem length_replaceSlot (old new : AppSlot) (ss : List AppSlot) :
    (replaceSlot old new ss).length = ss.length := by
  induction ss with
  | nil => rfl
  | cons a ss ih =>
    unfold replaceSlot
    split
    · rfl
    · simp [ih]

theorem labels_replaceSlot {old new : AppSlot} {ss : List AppSlot}
    (hn : (ss.map AppSlot.label).Nodup) (ho : old ∈ ss)
    (hnew : ∀ s ∈ ss, s ≠ old → s.label ≠ new.label) :
    ((replaceSlot old new ss).map AppSlot.label).Nodup := by
  induction ss with
  | nil => simp at ho
  | cons a ss ih =>
    rw [List.map_cons, List.nodup_cons] at hn
    unfold replaceSlot
    by_cases ha : a = old
    · subst ha
      rw [if_pos rfl, List.map_cons, List.nodup_cons]
      refine ⟨fun hmem => ?_, hn.2⟩
      obtain ⟨s, hs, hl⟩ := List.mem_map.1 hmem
      refine hnew s (List.mem_cons_of_mem _ hs) ?_ hl
      rintro rfl
      exact hn.1 (List.mem_map_of_mem hs)
    · have ho' : old ∈ ss := (List.mem_cons.1 ho).resolve_left fun he => ha he.symm
      rw [if_neg ha, List.map_cons, List.nodup_cons]
      refine ⟨fun hmem => ?_, ih hn.2 ho' fun s hs => hnew s (List.mem_cons_of_mem _ hs)⟩
      obtain ⟨s, hs, hl⟩ := List.mem_map.1 hmem
      rcases (mem_replaceSlot hn.2.of_map ho').1 hs with rfl | ⟨hs, -⟩
      · exact hnew a List.mem_cons_self ha hl.symm
      · exact hn.1 (hl ▸ List.mem_map_of_mem hs)

/-! ### What the check lets through -/

theorem then_ok {ε : Type} (x y : Except ε Unit) :
    (x >>= fun _ => y) = .ok () ↔ x = .ok () ∧ y = .ok () := by
  cases x with
  | error e => simp [bind, Except.bind]
  | ok u => simp [bind, Except.bind]

theorem forM_ok {ε α : Type} (f : α → Except ε Unit) (xs : List α) :
    xs.forM f = .ok () ↔ ∀ x ∈ xs, f x = .ok () := by
  induction xs with
  | nil => simp [List.forM, pure, Except.pure]
  | cons x xs ih =>
    have hcons : (x :: xs).forM f = (f x >>= fun _ => xs.forM f) := rfl
    rw [hcons, then_ok, ih]
    simp

/-- What a candidate that was not refused may take. -/
structure Admitted (t : SlotTable) (loaded : LoadedBundle) (replacement : Option AppSlot)
    (selected : Bool) : Prop where
  standing : ∀ r, replacement = some r → r ∈ t.slots
  label : ∀ s ∈ t.slots, s.label = loaded.manifest.app → replacement = some s
  held : ∀ b, ∀ claim ∈ b.names loaded.manifest, ∀ s, (t.books b).get claim = some s →
    replacement = some s
  taken : ∀ claim ∈ Book.occupied.names loaded.manifest, t.occupant claim = none → selected = true
  room : replacement = none → t.slots.length < t.maxSlots

theorem refuseClaim_ok {t : SlotTable} {replacement : Option AppSlot} {selected : Bool} {b : Book}
    {claim : String} (h : t.refuseClaim replacement selected b claim = .ok ()) :
    (∀ s, (t.books b).get claim = some s → replacement = some s) ∧
      (b = .occupied → (t.books b).get claim = none → selected = true) := by
  unfold refuseClaim at h
  cases hget : (t.books b).get claim with
  | some claimant =>
    simp only [hget] at h
    split at h
    · rename_i hr
      refine ⟨fun s hs => ?_, fun _ hn => by simp at hn⟩
      rw [hr, Option.some.inj hs]
    · simp at h
  | none =>
    simp only [hget] at h
    refine ⟨fun s hs => by simp at hs, fun hb _ => ?_⟩
    split at h
    · simp at h
    · rename_i hn
      cases hsel : selected with
      | true => rfl
      | false => exact absurd ⟨hb, hsel⟩ hn

theorem refuseConflicts_ok {t : SlotTable} (hs : Sound t) {loaded : LoadedBundle}
    {replacement : Option AppSlot} {selected : Bool}
    (h : t.refuseConflicts loaded replacement selected = .ok ()) :
    Admitted t loaded replacement selected := by
  simp only [refuseConflicts, then_ok] at h
  obtain ⟨hstale, hname, hbooks, hfull⟩ := h
  have hclaims : ∀ b, ∀ claim ∈ b.names loaded.manifest,
      t.refuseClaim replacement selected b claim = .ok () := by
    intro b
    have hb := (forM_ok _ _).1 hbooks b (by cases b <;> simp [booksOf])
    exact (forM_ok _ _).1 hb
  refine ⟨?_, fun s hmem hl => ?_, fun b claim hc => (refuseClaim_ok (hclaims b claim hc)).1,
    fun claim hc hn => (refuseClaim_ok (hclaims .occupied claim hc)).2 rfl hn, fun hr => ?_⟩
  · rintro r rfl
    by_contra hr
    simp [refuseStale, hr] at hstale
  · cases hget : t.get loaded.manifest.app with
    | none => exact absurd hl (get_none hget s hmem)
    | some s' =>
      obtain ⟨hmem', hl'⟩ := get_some hget
      rw [hs.label_inj hmem hmem' (hl.trans hl'.symm)]
      by_contra hne
      simp [refuseLabel, hget, hne] at hname
  · by_contra hlt
    have : t.maxSlots ≤ t.slots.length := by omega
    simp [refuseFull, hr, this] at hfull

/-! ### Installs, removals, clears -/

/-- A commit the check let through keeps the books right. -/
theorem Sound.commit {t : SlotTable} (h : Sound t) (slot : AppSlot) {replacement : Option AppSlot}
    {selected : Bool} (ha : Admitted t slot.verifiedBundle replacement selected) :
    Sound (t.commit slot replacement) := by
  cases replacement with
  | none =>
    refine ⟨?_, ?_, fun b claim s => ?_⟩
    · simp only [SlotTable.commit, List.map_append, List.map_cons, List.map_nil]
      refine List.nodup_append.2 ⟨h.labels, List.nodup_singleton _, ?_⟩
      rintro l hl l' hl' rfl
      obtain ⟨s, hs, rfl⟩ := List.mem_map.1 hl
      have := ha.label s hs (List.mem_singleton.1 hl')
      simp at this
    · have := ha.room rfl
      simp only [SlotTable.commit, List.length_append, List.length_cons, List.length_nil]
      omega
    · simp only [SlotTable.commit, get_claimIn, List.mem_append, List.mem_singleton]
      have hb := h.booked b claim s
      by_cases hc : claim ∈ slot.claims b
      · rw [if_pos hc]
        constructor
        · intro he
          obtain rfl := Option.some.inj he
          exact ⟨.inr rfl, hc⟩
        · rintro ⟨hs | rfl, hcs⟩
          · have := ha.held b claim hc s (hb.2 ⟨hs, hcs⟩)
            simp at this
          · rfl
      · rw [if_neg hc, hb]
        constructor
        · exact fun ⟨hs, hcs⟩ => ⟨.inl hs, hcs⟩
        · rintro ⟨hs | rfl, hcs⟩
          · exact ⟨hs, hcs⟩
          · exact absurd hcs hc
  | some r =>
    have hr := ha.standing r rfl
    refine ⟨?_, ?_, fun b claim s => ?_⟩
    · refine labels_replaceSlot h.labels hr fun s hs hne hl => hne ?_
      exact (Option.some.inj (ha.label s hs hl)).symm
    · simp only [SlotTable.commit, length_replaceSlot]
      exact h.capped
    · simp only [SlotTable.commit, get_claimIn]
      rw [mem_replaceSlot h.nodup hr]
      have hb := h.released hr b claim s
      by_cases hc : claim ∈ slot.claims b
      · rw [if_pos hc]
        constructor
        · intro he
          obtain rfl := Option.some.inj he
          exact ⟨.inl rfl, hc⟩
        · rintro ⟨rfl | ⟨hs, hne⟩, hcs⟩
          · rfl
          · have := ha.held b claim hc s ((h.booked b claim s).2 ⟨hs, hcs⟩)
            exact absurd (Option.some.inj this).symm hne
      · rw [if_neg hc, hb]
        constructor
        · exact fun ⟨hs, hcs⟩ => ⟨.inr hs, hcs⟩
        · rintro ⟨rfl | hs, hcs⟩
          · exact absurd hcs hc
          · exact ⟨hs, hcs⟩

theorem Sound.remove {t : SlotTable} (h : Sound t) (app : String) : Sound (t.remove app).2 := by
  unfold SlotTable.remove
  cases hget : t.get app with
  | none => exact h
  | some slot =>
    obtain ⟨hmem, -⟩ := get_some hget
    refine ⟨?_, ?_, fun b claim s => ?_⟩
    · exact (List.erase_sublist.map _).nodup h.labels
    · exact (List.length_erase_le).trans h.capped
    · have hb := h.released hmem b claim s
      simp only [release] at hb ⊢
      rw [hb, h.nodup.mem_erase_iff]
      exact and_congr_left fun _ => and_comm

theorem Sound.clear {t : SlotTable} : Sound t.clear.2 :=
  ⟨List.nodup_nil, Nat.zero_le _, fun b claim s => by simp [SlotTable.clear]⟩

theorem sound_create (maxSlots : Nat) : Sound (create maxSlots) :=
  ⟨List.nodup_nil, Nat.zero_le _, fun b claim s => by simp [create]⟩

/-! ### The occupied services -/

/-- Who holds an occupied service behind a commit. -/
theorem Sound.occupant_commit {t : SlotTable} (h : Sound t) (slot : AppSlot)
    {replacement : Option AppSlot} {selected : Bool}
    (ha : Admitted t slot.verifiedBundle replacement selected) {service : String} {s : AppSlot}
    (hs : (t.commit slot replacement).occupant service = some s) :
    t.occupant service = some s ∨
      s = slot ∧ service ∈ slot.claims .occupied ∧
        (selected = true ∨ ∃ r, replacement = some r ∧ t.occupant service = some r) := by
  obtain ⟨hmem, hc⟩ := ((h.commit slot ha).booked .occupied service s).1 hs
  have new : s = slot → s = slot ∧ service ∈ slot.claims .occupied ∧
      (selected = true ∨ ∃ r, replacement = some r ∧ t.occupant service = some r) := by
    rintro rfl
    refine ⟨rfl, hc, ?_⟩
    cases ho : t.occupant service with
    | none => exact .inl (ha.taken service hc ho)
    | some r => exact .inr ⟨r, ha.held .occupied service hc r ho, rfl⟩
  cases replacement with
  | none =>
    simp only [SlotTable.commit, List.mem_append, List.mem_singleton] at hmem
    exact hmem.imp (fun hold => (h.booked .occupied service s).2 ⟨hold, hc⟩) new
  | some r =>
    rcases (mem_replaceSlot h.nodup (ha.standing r rfl)).1 hmem with hnew | ⟨hold, -⟩
    · exact .inr (new hnew)
    · exact .inl ((h.booked .occupied service s).2 ⟨hold, hc⟩)

theorem Sound.occupant_remove {t : SlotTable} (h : Sound t) (app service : String) {s : AppSlot}
    (hs : (t.remove app).2.occupant service = some s) : t.occupant service = some s := by
  unfold SlotTable.remove at hs
  cases hget : t.get app with
  | none => simpa [hget] using hs
  | some slot =>
    rw [hget] at hs
    have := (h.released (get_some hget).1 .occupied service s).1 hs
    exact (h.booked .occupied service s).2 ⟨this.1.1, this.2⟩

end SlotTable

/-! ### Runs -/

/-- A whole install, as the installer runs its last check and its commit in one go; a
removal; or a clear. -/
inductive SlotOp where
  | install (loaded : LoadedBundle) (replacement : Option AppSlot) (selected : Bool)
  | remove (app : String)
  | clear

/-- One install that went through. -/
structure Taking where
  slot : AppSlot
  replacement : Option AppSlot
  selected : Bool

/-- The table over time: how many slots were made, and every install that went through. -/
structure Desk where
  table : SlotTable
  made : Nat
  log : List Taking

namespace Desk

def start (maxSlots : Nat) : Desk := ⟨.create maxSlots, 0, []⟩

def step (d : Desk) : SlotOp → Desk
  | .install loaded replacement selected =>
    let slot : AppSlot := ⟨d.made, loaded⟩
    match d.table.refuseConflicts loaded replacement selected with
    | .ok _ =>
      { table := d.table.commit slot replacement
        made := d.made + 1
        log := d.log ++ [⟨slot, replacement, selected⟩] }
    | .error _ => { d with made := d.made + 1 }
  | .remove app => { d with table := (d.table.remove app).2 }
  | .clear => { d with table := d.table.clear.2 }

def run (d : Desk) (ops : List SlotOp) : Desk := ops.foldl step d

end Desk

/-- The slots that may hold an occupied service: the one the boot selected, and whoever
replaced one of them. -/
inductive Lineal (log : List Taking) (service : String) : AppSlot → Prop
  | selected {k : Taking} (mem : k ∈ log) (sel : k.selected = true)
      (claims : service ∈ k.slot.claims .occupied) : Lineal log service k.slot
  | heir {k : Taking} {r : AppSlot} (mem : k ∈ log) (replaces : k.replacement = some r)
      (held : service ∈ r.claims .occupied) (claims : service ∈ k.slot.claims .occupied)
      (line : Lineal log service r) : Lineal log service k.slot

theorem Lineal.mono {log log' : List Taking} (hsub : log ⊆ log') {service : String} {s : AppSlot}
    (h : Lineal log service s) : Lineal log' service s := by
  induction h with
  | selected mem sel claims => exact .selected (hsub mem) sel claims
  | heir mem replaces held claims _ ih => exact .heir (hsub mem) replaces held claims ih

/-- What a desk keeps. -/
structure Desk.Kept (d : Desk) : Prop where
  sound : d.table.Sound
  lineal : ∀ service s, d.table.occupant service = some s → Lineal d.log service s

def SlotOp.isSelected : SlotOp → Bool
  | .install _ _ selected => selected
  | _ => false

namespace Desk

theorem Kept.step {d : Desk} (h : Kept d) (op : SlotOp) : Kept (d.step op) := by
  cases op with
  | install loaded replacement selected =>
    simp only [Desk.step]
    cases hok : d.table.refuseConflicts loaded replacement selected with
    | error e => exact ⟨h.sound, h.lineal⟩
    | ok u =>
      have ha := SlotTable.refuseConflicts_ok h.sound hok
      refine ⟨h.sound.commit ⟨d.made, loaded⟩ ha, fun service s hs => ?_⟩
      have hnew : (⟨⟨d.made, loaded⟩, replacement, selected⟩ : Taking) ∈
          d.log ++ [⟨⟨d.made, loaded⟩, replacement, selected⟩] := by simp
      rcases h.sound.occupant_commit ⟨d.made, loaded⟩ ha hs with
        hold | ⟨rfl, hc, hsel | ⟨r, hr, ho⟩⟩
      · exact (h.lineal service s hold).mono (List.subset_append_left _ _)
      · exact .selected hnew hsel hc
      · refine .heir hnew hr ((h.sound.booked .occupied service r).1 ho).2 hc ?_
        exact (h.lineal service r ho).mono (List.subset_append_left _ _)
  | remove app =>
    exact ⟨h.sound.remove app, fun service s hs =>
      h.lineal service s (h.sound.occupant_remove app service hs)⟩
  | clear => exact ⟨SlotTable.Sound.clear, fun service s hs => by
      simp [Desk.step, SlotTable.clear, SlotTable.occupant] at hs⟩

/-- Without the boot's selection a free service stays free. -/
theorem Kept.step_free {d : Desk} (h : Kept d) {op : SlotOp} (hop : op.isSelected = false)
    {service : String} (hfree : d.table.occupant service = none) :
    (d.step op).table.occupant service = none := by
  rw [Option.eq_none_iff_forall_ne_some]
  intro s hs
  cases op with
  | install loaded replacement selected =>
    simp only [Desk.step] at hs
    cases hok : d.table.refuseConflicts loaded replacement selected with
    | error e =>
      rw [hok] at hs
      simp [hfree] at hs
    | ok u =>
      rw [hok] at hs
      have ha := SlotTable.refuseConflicts_ok h.sound hok
      rcases h.sound.occupant_commit ⟨d.made, loaded⟩ ha hs with
        hold | ⟨-, -, hsel | ⟨r, -, ho⟩⟩
      · simp [hfree] at hold
      · simp only [SlotOp.isSelected] at hop
        simp [hop] at hsel
      · simp [hfree] at ho
  | remove app =>
    have := h.sound.occupant_remove app service hs
    simp [hfree] at this
  | clear => simp [Desk.step, SlotTable.clear, SlotTable.occupant] at hs

theorem Kept.run {d : Desk} (h : Kept d) (ops : List SlotOp) : Kept (d.run ops) := by
  induction ops generalizing d with
  | nil => exact h
  | cons op ops ih => exact ih (h.step op)

theorem Kept.run_free {d : Desk} (h : Kept d) (ops : List SlotOp)
    (hops : ∀ op ∈ ops, op.isSelected = false) {service : String}
    (hfree : d.table.occupant service = none) : (d.run ops).table.occupant service = none := by
  induction ops generalizing d with
  | nil => exact hfree
  | cons op ops ih =>
    exact ih (h.step op) (fun o ho => hops o (by simp [ho])) (h.step_free (hops op (by simp)) hfree)

theorem kept_start (maxSlots : Nat) : Kept (start maxSlots) :=
  ⟨SlotTable.sound_create maxSlots, fun service s hs => by
    simp [start, SlotTable.create, SlotTable.occupant] at hs⟩

theorem step_maxSlots (d : Desk) (op : SlotOp) : (d.step op).table.maxSlots = d.table.maxSlots := by
  cases op with
  | install loaded replacement selected =>
    simp only [step]
    cases d.table.refuseConflicts loaded replacement selected with
    | error e => rfl
    | ok u => cases replacement <;> rfl
  | remove app =>
    simp only [step, SlotTable.remove]
    cases d.table.get app <;> rfl
  | clear => rfl

theorem run_maxSlots (d : Desk) (ops : List SlotOp) :
    (d.run ops).table.maxSlots = d.table.maxSlots := by
  induction ops generalizing d with
  | nil => rfl
  | cons op ops ih => exact (ih (d.step op)).trans (step_maxSlots d op)

/-- Labels are distinct and within the cap, the books are what the installed manifests say
and no more, and an occupied service stays in the line of the boot's selection: once it is
free, only a selection takes it again. -/
theorem books_follow_slots (maxSlots : Nat) (ops later : List SlotOp)
    (hlater : ∀ op ∈ later, op.isSelected = false) :
    let d := (start maxSlots).run ops
    (d.table.slots.map AppSlot.label).Nodup ∧ d.table.slots.length ≤ maxSlots ∧
      (∀ b claim s, (d.table.books b).get claim = some s ↔ s ∈ d.table.slots ∧ claim ∈ s.claims b) ∧
      (∀ b claim, ∀ s ∈ d.table.slots, ∀ s' ∈ d.table.slots,
        claim ∈ s.claims b → claim ∈ s'.claims b → s = s') ∧
      (∀ service s, d.table.occupant service = some s → Lineal d.log service s) ∧
      ∀ service, d.table.occupant service = none →
        ((start maxSlots).run (ops ++ later)).table.occupant service = none := by
  have h := (kept_start maxSlots).run ops
  refine ⟨h.sound.labels, ?_, h.sound.booked, ?_, h.lineal, fun service hfree => ?_⟩
  · have hcap := h.sound.capped
    rwa [run_maxSlots] at hcap
  · exact fun b claim s hs s' hs' hc hc' => h.sound.one_owner hs hc hs' hc'
  · have := h.run_free later hlater hfree
    simpa [run, List.foldl_append] using this

/-- A transport, for the run below. -/
def netBundle : LoadedBundle :=
  ⟨⟨"net", 1, ["link", "timer"], none, some ["_net"]⟩, [1]⟩

/-- The boot's transport is uninstalled; installing it again does not bring it back to the
raw links. -/
theorem books_follow_slots_link : ((start 8).run ([.install netBundle none true, .remove "net"] ++
    [.install netBundle none false])).table.occupant "link" = none :=
  (books_follow_slots 8 [.install netBundle none true, .remove "net"]
    [.install netBundle none false] (by simp [SlotOp.isSelected])).2.2.2.2.2 "link" (by decide +kernel)

end Desk

end SeedTransport
