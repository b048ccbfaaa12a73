import Mathlib

set_option autoImplicit false

/-- A finite map that remembers the order its keys were first set in, as a
JavaScript `Map` does: setting a key again keeps its place. -/
structure OrdMap (κ α : Type) where
  entries : List (κ × α)
  nodup : (entries.map Prod.fst).Nodup

namespace OrdMap

def empty {κ α : Type} : OrdMap κ α := ⟨[], List.nodup_nil⟩

def keys {κ α : Type} (m : OrdMap κ α) : List κ := m.entries.map Prod.fst

def size {κ α : Type} (m : OrdMap κ α) : Nat := m.entries.length

def get {κ α : Type} [DecidableEq κ] (m : OrdMap κ α) (k : κ) : Option α :=
  (m.entries.find? (fun e => decide (e.1 = k))).map Prod.snd

def has {κ α : Type} [DecidableEq κ] (m : OrdMap κ α) (k : κ) : Bool := decide (k ∈ m.keys)

/-- Replace the value of a key that is there, else append the key. -/
def put {κ α : Type} [DecidableEq κ] (k : κ) (v : α) : List (κ × α) → List (κ × α)
  | [] => [(k, v)]
  | e :: es => if e.1 = k then (k, v) :: es else e :: put k v es

theorem put_keys {κ α : Type} [DecidableEq κ] (k : κ) (v : α) (es : List (κ × α)) :
    (put k v es).map Prod.fst =
      if k ∈ es.map Prod.fst then es.map Prod.fst else es.map Prod.fst ++ [k] := by
  induction es with
  | nil => simp [put]
  | cons e es ih =>
    by_cases h : e.1 = k
    · simp [put, h]
    · have h' : ¬ k = e.1 := fun hk => h hk.symm
      simp only [put, h, if_false, List.map_cons, ih, List.mem_cons, h', false_or]
      split <;> simp

def set {κ α : Type} [DecidableEq κ] (m : OrdMap κ α) (k : κ) (v : α) : OrdMap κ α where
  entries := put k v m.entries
  nodup := by
    rw [put_keys]
    split
    · exact m.nodup
    · rename_i h
      rw [List.nodup_append]
      refine ⟨m.nodup, List.nodup_singleton k, ?_⟩
      intro a ha b hb hab
      simp only [List.mem_singleton] at hb
      subst hab hb
      exact h ha

def delete {κ α : Type} [DecidableEq κ] (m : OrdMap κ α) (k : κ) : OrdMap κ α where
  entries := m.entries.filter (fun e => decide (e.1 ≠ k))
  nodup := m.nodup.sublist (List.filter_sublist.map Prod.fst)

/-- The sum of a measure over the entries. -/
def sum {κ α : Type} (m : OrdMap κ α) (f : κ × α → Nat) : Nat := (m.entries.map f).sum

theorem get_eq_some {κ α : Type} [DecidableEq κ] (m : OrdMap κ α) (k : κ) (v : α) :
    m.get k = some v ↔ (k, v) ∈ m.entries := by
  obtain ⟨es, hn⟩ := m
  simp only [get]
  induction es with
  | nil => simp
  | cons e es ih =>
    simp only [List.map_cons, List.nodup_cons] at hn
    by_cases h : e.1 = k
    · subst h
      simp only [List.find?_cons, decide_true, Option.map_some, Option.some.injEq,
        List.mem_cons]
      constructor
      · rintro rfl; exact Or.inl rfl
      · rintro (he | he)
        · rw [← he]
        · exact absurd (List.mem_map_of_mem he) hn.1
    · have hne : (k, v) ≠ e := fun he => h (by rw [← he])
      simp only [List.find?_cons, h, decide_false, List.mem_cons, hne, false_or]
      exact ih hn.2

theorem mem_keys {κ α : Type} [DecidableEq κ] (m : OrdMap κ α) (k : κ) :
    k ∈ m.keys ↔ ∃ v, m.get k = some v := by
  simp only [keys, List.mem_map, Prod.exists, get_eq_some]
  constructor
  · rintro ⟨a, b, hm, rfl⟩; exact ⟨b, hm⟩
  · rintro ⟨v, hm⟩; exact ⟨k, v, hm, rfl⟩

theorem get_eq_none {κ α : Type} [DecidableEq κ] (m : OrdMap κ α) (k : κ) :
    m.get k = none ↔ k ∉ m.keys := by
  rw [mem_keys]
  cases h : m.get k <;> simp

@[simp] theorem has_iff {κ α : Type} [DecidableEq κ] (m : OrdMap κ α) (k : κ) :
    m.has k = true ↔ ∃ v, m.get k = some v := by
  simp [has, mem_keys]

@[simp] theorem get_empty {κ α : Type} [DecidableEq κ] (k : κ) :
    (empty : OrdMap κ α).get k = none := rfl

theorem mem_put {κ α : Type} [DecidableEq κ] (k k' : κ) (v v' : α) (es : List (κ × α))
    (hn : (es.map Prod.fst).Nodup) :
    (k', v') ∈ put k v es ↔ (k' = k ∧ v' = v) ∨ (k' ≠ k ∧ (k', v') ∈ es) := by
  induction es with
  | nil => simp [put]
  | cons e es ih =>
    obtain ⟨a, b⟩ := e
    simp only [List.map_cons, List.nodup_cons] at hn
    by_cases h : a = k
    · subst h
      simp only [put, if_true, List.mem_cons, Prod.mk.injEq]
      constructor
      · rintro (he | he)
        · exact Or.inl he
        · refine Or.inr ⟨?_, Or.inr he⟩
          rintro rfl
          exact hn.1 (List.mem_map_of_mem he)
      · rintro (he | ⟨hne, ⟨rfl, _⟩ | he⟩)
        · exact Or.inl he
        · exact absurd rfl hne
        · exact Or.inr he
    · simp only [put, h, if_false, List.mem_cons, ih hn.2, Prod.mk.injEq]
      constructor
      · rintro (⟨rfl, rfl⟩ | ⟨rfl, rfl⟩ | ⟨hne, he⟩)
        · exact Or.inr ⟨h, Or.inl ⟨rfl, rfl⟩⟩
        · exact Or.inl ⟨rfl, rfl⟩
        · exact Or.inr ⟨hne, Or.inr he⟩
      · rintro (⟨rfl, rfl⟩ | ⟨hne, ⟨rfl, rfl⟩ | he⟩)
        · exact Or.inr (Or.inl ⟨rfl, rfl⟩)
        · exact Or.inl ⟨rfl, rfl⟩
        · exact Or.inr (Or.inr ⟨hne, he⟩)

theorem get_set {κ α : Type} [DecidableEq κ] (m : OrdMap κ α) (k k' : κ) (v : α) :
    (m.set k v).get k' = if k' = k then some v else m.get k' := by
  apply Option.ext
  intro w
  have hm := mem_put k k' v w m.entries m.nodup
  rw [get_eq_some]
  change (k', w) ∈ put k v m.entries ↔ _
  rw [hm]
  by_cases h : k' = k
  · simp [h, eq_comm]
  · simp [h, get_eq_some]

@[simp] theorem get_set_self {κ α : Type} [DecidableEq κ] (m : OrdMap κ α) (k : κ) (v : α) :
    (m.set k v).get k = some v := by simp [get_set]

theorem get_delete {κ α : Type} [DecidableEq κ] (m : OrdMap κ α) (k k' : κ) :
    (m.delete k).get k' = if k' = k then none else m.get k' := by
  apply Option.ext
  intro w
  rw [get_eq_some]
  by_cases h : k' = k
  · simp [delete, h]
  · simp [delete, h, get_eq_some]

theorem get_set_eq_update {κ α : Type} [DecidableEq κ] (m : OrdMap κ α) (k : κ) (v : α) :
    (m.set k v).get = Function.update m.get k (some v) := by
  funext k'
  simp [get_set, Function.update_apply]

theorem get_delete_eq_update {κ α : Type} [DecidableEq κ] (m : OrdMap κ α) (k : κ) :
    (m.delete k).get = Function.update m.get k none := by
  funext k'
  simp [get_delete, Function.update_apply]

theorem size_eq_zero {κ α : Type} [DecidableEq κ] (m : OrdMap κ α) :
    m.size = 0 ↔ ∀ k, m.get k = none := by
  constructor
  · intro h k
    have hnil : m.entries = [] := List.length_eq_zero_iff.mp h
    simp [get, hnil]
  · intro h
    apply List.length_eq_zero_iff.mpr
    apply List.eq_nil_iff_forall_not_mem.mpr
    rintro ⟨k, v⟩ hm
    have hk := (get_eq_some m k v).mpr hm
    rw [h k] at hk
    cases hk

theorem size_pos {κ α : Type} [DecidableEq κ] (m : OrdMap κ α) :
    m.size ≠ 0 ↔ ∃ k v, m.get k = some v := by
  rw [Ne, size_eq_zero, not_forall]
  constructor
  · rintro ⟨k, hk⟩
    obtain ⟨v, hv⟩ := Option.ne_none_iff_exists'.mp hk
    exact ⟨k, v, hv⟩
  · rintro ⟨k, v, hv⟩
    exact ⟨k, by simp [hv]⟩

theorem sum_filter_ne {κ α : Type} [DecidableEq κ] (f : κ × α → Nat) (k : κ) (v : α)
    (es : List (κ × α)) (hn : (es.map Prod.fst).Nodup) (h : (k, v) ∈ es) :
    (es.map f).sum = f (k, v) + ((es.filter (fun e => decide (e.1 ≠ k))).map f).sum := by
  induction es with
  | nil => simp at h
  | cons e es ih =>
    simp only [List.map_cons, List.nodup_cons] at hn
    rcases List.mem_cons.mp h with rfl | he
    · have hall : es.filter (fun e => decide (e.1 ≠ k)) = es := by
        apply List.filter_eq_self.mpr
        intro a ha
        simp only [ne_eq, decide_eq_true_eq]
        intro hak
        exact hn.1 (hak ▸ List.mem_map.mpr ⟨a, ha, rfl⟩)
      rw [List.filter_cons_of_neg (by simp)]
      simp only [List.map_cons, List.sum_cons]
      rw [hall]
    · have hne : e.1 ≠ k := by
        intro hek
        exact hn.1 (hek ▸ List.mem_map.mpr ⟨(k, v), he, rfl⟩)
      rw [List.filter_cons_of_pos (by simpa using hne)]
      have := ih hn.2 he
      simp only [List.map_cons, List.sum_cons]
      omega

/-- Deleting an entry takes exactly its measure off the sum. -/
theorem sum_delete {κ α : Type} [DecidableEq κ] (m : OrdMap κ α) (f : κ × α → Nat) (k : κ) (v : α)
    (h : m.get k = some v) : m.sum f = f (k, v) + (m.delete k).sum f :=
  sum_filter_ne f k v m.entries m.nodup ((get_eq_some m k v).mp h)

theorem sum_delete_le {κ α : Type} [DecidableEq κ] (m : OrdMap κ α) (f : κ × α → Nat) (k : κ) :
    (m.delete k).sum f ≤ m.sum f := by
  have hs : ((m.entries.filter (fun e => decide (e.1 ≠ k))).map f).Sublist (m.entries.map f) :=
    List.filter_sublist.map f
  exact hs.sum_le_sum (fun a _ => Nat.zero_le a)

theorem sum_put {κ α : Type} [DecidableEq κ] (f : κ × α → Nat) (k : κ) (v : α)
    (es : List (κ × α)) (hn : (es.map Prod.fst).Nodup) :
    ((put k v es).map f).sum =
      f (k, v) + ((es.filter (fun e => decide (e.1 ≠ k))).map f).sum := by
  induction es with
  | nil => simp [put]
  | cons e es ih =>
    simp only [List.map_cons, List.nodup_cons] at hn
    by_cases h : e.1 = k
    · subst h
      have hall : es.filter (fun x => decide (x.1 ≠ e.1)) = es := by
        apply List.filter_eq_self.mpr
        intro a ha
        simp only [ne_eq, decide_eq_true_eq]
        intro hae
        exact hn.1 (hae ▸ List.mem_map_of_mem ha)
      rw [List.filter_cons_of_neg (by simp), hall]
      simp [put]
    · rw [List.filter_cons_of_pos (by simpa using h)]
      have := ih hn.2
      simp only [put, h, if_false, List.map_cons, List.sum_cons]
      omega

theorem sum_set {κ α : Type} [DecidableEq κ] (m : OrdMap κ α) (f : κ × α → Nat) (k : κ) (v : α) :
    (m.set k v).sum f = f (k, v) + (m.delete k).sum f :=
  sum_put f k v m.entries m.nodup

theorem sum_delete_of_none {κ α : Type} [DecidableEq κ] (m : OrdMap κ α) (f : κ × α → Nat) (k : κ)
    (h : m.get k = none) : (m.delete k).sum f = m.sum f := by
  have hall : m.entries.filter (fun e => decide (e.1 ≠ k)) = m.entries := by
    apply List.filter_eq_self.mpr
    rintro ⟨a, b⟩ ha
    simp only [ne_eq, decide_eq_true_eq]
    rintro rfl
    have := (get_eq_some m a b).mpr ha
    rw [h] at this
    cases this
  simp only [sum, delete, hall]

/-- Setting a key that was not there adds exactly its measure. -/
theorem sum_set_new {κ α : Type} [DecidableEq κ] (m : OrdMap κ α) (f : κ × α → Nat) (k : κ) (v : α)
    (h : m.get k = none) : (m.set k v).sum f = f (k, v) + m.sum f := by
  rw [sum_set, sum_delete_of_none m f k h]

theorem size_eq_sum {κ α : Type} (m : OrdMap κ α) : m.size = m.sum (fun _ => 1) := by
  simp [size, sum]

theorem size_set_le {κ α : Type} [DecidableEq κ] (m : OrdMap κ α) (k : κ) (v : α) :
    (m.set k v).size ≤ m.size + 1 := by
  have h := m.sum_delete_le (fun _ => 1) k
  rw [size_eq_sum, size_eq_sum, sum_set]
  omega

theorem size_delete {κ α : Type} [DecidableEq κ] (m : OrdMap κ α) {k : κ} {v : α}
    (h : m.get k = some v) : (m.delete k).size + 1 = m.size := by
  have hs := m.sum_delete (fun _ => 1) k v h
  rw [size_eq_sum, size_eq_sum]
  omega

/-- A key that was not there goes to the end. -/
theorem put_new {κ α : Type} [DecidableEq κ] (k : κ) (v : α) {es : List (κ × α)}
    (h : k ∉ es.map Prod.fst) : put k v es = es ++ [(k, v)] := by
  induction es with
  | nil => rfl
  | cons e es ih =>
    rw [List.map_cons, List.mem_cons, not_or] at h
    have hne : e.1 ≠ k := fun he => h.1 he.symm
    simp only [put, hne, if_false, ih h.2, List.cons_append]

theorem entries_set_new {κ α : Type} [DecidableEq κ] (m : OrdMap κ α) (k : κ) (v : α)
    (h : m.get k = none) : (m.set k v).entries = m.entries ++ [(k, v)] :=
  put_new k v ((get_eq_none m k).1 h)

theorem keys_delete_sublist {κ α : Type} [DecidableEq κ] (m : OrdMap κ α) (k : κ) :
    (m.delete k).keys.Sublist m.keys :=
  List.filter_sublist.map Prod.fst

/-- Setting a key that is there changes nothing a measure of its value does not see. -/
theorem map_set_same {κ α β : Type} [DecidableEq κ] (m : OrdMap κ α) (f : κ × α → β) {k : κ}
    {v w : α} (h : m.get k = some v) (hf : f (k, w) = f (k, v)) :
    (m.set k w).entries.map f = m.entries.map f := by
  have hput : ∀ es : List (κ × α), (es.map Prod.fst).Nodup → (k, v) ∈ es →
      (put k w es).map f = es.map f := by
    intro es
    induction es with
    | nil => intro _ hm; simp at hm
    | cons e es ih =>
      intro hn hm
      simp only [List.map_cons, List.nodup_cons] at hn
      by_cases he : e.1 = k
      · have hev : e = (k, v) := by
          rcases List.mem_cons.mp hm with hm | hm
          · exact hm.symm
          · exact absurd (List.mem_map_of_mem hm) (he ▸ hn.1)
        simp [put, hev, hf]
      · have hm' : (k, v) ∈ es := by
          rcases List.mem_cons.mp hm with hm | hm
          · exact absurd (congrArg Prod.fst hm).symm he
          · exact hm
        simp [put, he, ih hn.2 hm']
  exact hput m.entries m.nodup ((get_eq_some m k v).mp h)

/-! ### Taking a write back -/

theorem ext_entries {κ α : Type} {m m' : OrdMap κ α} (h : m.entries = m'.entries) : m = m' := by
  obtain ⟨es, hn⟩ := m
  obtain ⟨es', hn'⟩ := m'
  obtain rfl : es = es' := h
  rfl

theorem delete_set_new {κ α : Type} [DecidableEq κ] (m : OrdMap κ α) (k : κ) (v : α)
    (h : m.get k = none) : (m.set k v).delete k = m := by
  have hk : ∀ e ∈ m.entries, e.1 ≠ k := by
    intro e he hek
    have := (get_eq_none m k).1 h
    exact this (hek ▸ List.mem_map_of_mem he)
  have he : ((m.set k v).delete k).entries = m.entries := by
    simp only [delete]
    rw [entries_set_new m k v h, List.filter_append]
    simpa using hk
  exact ext_entries he

theorem put_put {κ α : Type} [DecidableEq κ] (k : κ) (v w : α) (es : List (κ × α)) :
    put k w (put k v es) = put k w es := by
  induction es with
  | nil => simp [put]
  | cons e es ih =>
    by_cases h : e.1 = k
    · simp [put, h]
    · simp [put, h, ih]

theorem put_same {κ α : Type} [DecidableEq κ] {k : κ} {v : α} {es : List (κ × α)}
    (hn : (es.map Prod.fst).Nodup) (h : (k, v) ∈ es) : put k v es = es := by
  induction es with
  | nil => simp at h
  | cons e es ih =>
    rw [List.map_cons, List.nodup_cons] at hn
    rcases List.mem_cons.1 h with rfl | h
    · simp [put]
    · have hne : e.1 ≠ k := by
        intro he
        exact hn.1 (he ▸ List.mem_map_of_mem h)
      simp [put, hne, ih hn.2 h]

theorem set_set_back {κ α : Type} [DecidableEq κ] (m : OrdMap κ α) (k : κ) (v c : α)
    (h : m.get k = some c) : (m.set k v).set k c = m := by
  have he : ((m.set k v).set k c).entries = m.entries := by
    simp only [set, put_put]
    exact put_same m.nodup ((get_eq_some m k c).1 h)
  exact ext_entries he

/-! ### The entries of some keys -/

def restrict {κ α : Type} (p : κ → Bool) (m : OrdMap κ α) : OrdMap κ α where
  entries := m.entries.filter fun e => p e.1
  nodup := m.nodup.sublist (List.filter_sublist.map Prod.fst)

variable {κ α : Type} {p : κ → Bool}

theorem keys_restrict (m : OrdMap κ α) : (m.restrict p).keys = m.keys.filter p := by
  simp only [keys, restrict, List.filter_map]
  rfl

variable [DecidableEq κ]

theorem get_restrict (m : OrdMap κ α) (k : κ) :
    (m.restrict p).get k = if p k then m.get k else none := by
  apply Option.ext
  intro v
  rw [get_eq_some]
  by_cases h : p k = true
  · simp [restrict, h, get_eq_some]
  · simp [restrict, h]

theorem filter_put_in {k : κ} (v : α) (hk : p k = true) (es : List (κ × α)) :
    (put k v es).filter (fun e => p e.1) = put k v (es.filter fun e => p e.1) := by
  induction es with
  | nil => simp [put, hk]
  | cons e es ih =>
    by_cases h : e.1 = k
    · simp [put, h, hk]
    · by_cases he : p e.1 = true
      · simp [put, h, he, ih]
      · simp [put, h, he, ih]

theorem filter_put_out {k : κ} (v : α) (hk : ¬ p k = true) (es : List (κ × α)) :
    (put k v es).filter (fun e => p e.1) = es.filter fun e => p e.1 := by
  induction es with
  | nil => simp [put, hk]
  | cons e es ih =>
    by_cases h : e.1 = k
    · simp [put, h, hk]
    · by_cases he : p e.1 = true
      · simp [put, h, he, ih]
      · simp [put, h, he, ih]

theorem restrict_set_in (m : OrdMap κ α) {k : κ} (v : α) (hk : p k = true) :
    (m.set k v).restrict p = (m.restrict p).set k v :=
  ext_entries (filter_put_in v hk m.entries)

theorem restrict_set_out (m : OrdMap κ α) {k : κ} (v : α) (hk : ¬ p k = true) :
    (m.set k v).restrict p = m.restrict p :=
  ext_entries (filter_put_out v hk m.entries)

theorem restrict_delete (m : OrdMap κ α) (k : κ) :
    (m.delete k).restrict p = (m.restrict p).delete k :=
  ext_entries (by
    simp only [restrict, delete, List.filter_filter]
    congr 1
    funext e
    exact Bool.and_comm _ _)

theorem delete_of_none (m : OrdMap κ α) {k : κ} (h : m.get k = none) : m.delete k = m := by
  apply ext_entries
  apply List.filter_eq_self.2
  intro e he
  have hk := (get_eq_none m k).1 h
  have : e.1 ≠ k := fun hek => hk (hek ▸ List.mem_map_of_mem he)
  simpa using this

theorem restrict_delete_out (m : OrdMap κ α) {k : κ} (hk : ¬ p k = true) :
    (m.delete k).restrict p = m.restrict p := by
  rw [restrict_delete]
  exact delete_of_none _ (by simp [get_restrict, hk])

end OrdMap
