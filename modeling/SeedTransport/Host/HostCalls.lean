import Mathlib

set_option autoImplicit false

namespace SeedTransport

/-! The host-call ledger of a realm (`realm.c`), under the guest preamble that names its calls
(`guest-seam.ts`). A call is on the stack from the time the guest names it until `host_call`
returns; guest code runs again inside it where the engine converts its name and where it puts
a message on an error, since a guest may have written `toString` and `Error.prototype`'s
setter. `R_Settle` comes from outside, with nothing on the stack. -/

/-! ### Taking an entry out of a table -/

/-- `a[i] = a[--n]` -/
def swapRemove {α : Type} (i : Nat) (l : List α) : List α :=
  match l.getLast? with
  | none => l
  | some z => (l.set i z).dropLast

section SwapRemove

variable {α : Type} {l : List α} {i : Nat} {c : α}

theorem swapRemove_concat (l : List α) (z : α) (i : Nat) :
    swapRemove i (l ++ [z]) = if i < l.length then l.set i z else l := by
  have hlast : (l ++ [z]).getLast? = some z := by simp
  simp only [swapRemove, hlast, List.set_append]
  by_cases h : i < l.length
  · simp [h]
  · cases i - l.length <;> simp [h]

theorem cons_swapRemove_perm (h : l[i]? = some c) : (c :: swapRemove i l).Perm l := by
  rcases List.eq_nil_or_concat l with rfl | ⟨l', z, rfl⟩
  · simp at h
  · rw [List.concat_eq_append] at h ⊢
    rw [swapRemove_concat]
    split
    · rename_i hi
      rw [List.getElem?_append_left hi] at h
      -- the last entry takes the place of the one that leaves
      have hset : (l'.set i z).Perm (z :: l'.eraseIdx i) := by
        rw [List.set_eq_take_append_cons_drop, if_pos hi, List.eraseIdx_eq_take_drop_succ]
        exact List.perm_middle
      have hout : (c :: l'.eraseIdx i).Perm l' := by
        have hc : l'.get ⟨i, hi⟩ = c := by
          rw [List.getElem?_eq_getElem hi] at h
          exact Option.some.inj h
        rw [← hc]
        exact List.getElem_cons_eraseIdx_perm hi
      calc
        (c :: l'.set i z).Perm (c :: z :: l'.eraseIdx i) := hset.cons c
        List.Perm _ (z :: c :: l'.eraseIdx i) := List.Perm.swap z c _
        List.Perm _ (z :: l') := hout.cons z
        List.Perm _ (l' ++ [z]) := (List.perm_append_singleton z l').symm
    · rename_i hi
      have hic : i = l'.length := by
        have := (List.getElem?_eq_some_iff.1 h).1
        simp at this
        omega
      subst hic
      simp at h
      subst h
      exact (List.perm_append_singleton z l').symm

theorem swapRemove_below {j : Nat} (h : j < i) (hi : i < l.length) :
    (swapRemove i l)[j]? = l[j]? := by
  rcases List.eq_nil_or_concat l with rfl | ⟨l', z, rfl⟩
  · simp at hi
  · rw [List.concat_eq_append] at hi ⊢
    simp at hi
    rw [swapRemove_concat, List.getElem?_append_left (by omega)]
    split
    · exact List.getElem?_set_ne (by omega)
    · rfl

end SwapRemove

/-! ### The ledger -/

/-- `size_t` of the engine. -/
abbrev SizeT := UInt32

structure LedgerCall where
  id : Nat
  bytes : SizeT
  deriving DecidableEq

/-- A call on the stack: named by the preamble and not yet in `host_call`, or in it, with its
local `i`, where its name is converted, where the host is asked, or where the error of a
refused call is made. -/
inductive CallFrame where
  | minted (id : Nat)
  | naming (id i : Nat)
  | asking (id i : Nat)
  | throwing (id i : Nat)
  deriving DecidableEq

/-- `fault` is an index outside the table, undefined in C. The last four are for an observer:
the calls admitted, the bytes charged to each, the calls that left the table with the bytes
given back for them, and the calls parked. -/
structure HostCalls where
  maxCalls : Nat
  maxBytes : SizeT
  calls : List LedgerCall
  callBytes : SizeT
  callSeq : Nat
  stack : List CallFrame
  fault : Bool
  admitted : List Nat
  charged : Nat → Nat
  removed : List (Nat × SizeT)
  parked : List Nat

namespace HostCalls

def init (maxCalls : Nat) (maxBytes : SizeT) : HostCalls where
  maxCalls := maxCalls
  maxBytes := maxBytes
  calls := []
  callBytes := 0
  callSeq := 0
  stack := []
  fault := false
  admitted := []
  charged := fun _ => 0
  removed := []
  parked := []

def findCall (id : Nat) (q : HostCalls) : Option Nat := q.calls.findIdx? fun c => c.id = id

/-- Charge the aggregate allowance, or refuse. -/
def charge (bytes : SizeT) (q : HostCalls) : Option HostCalls :=
  if q.maxBytes - q.callBytes < bytes then none else some { q with callBytes := q.callBytes + bytes }

def admitCall (id : Nat) (bytes : SizeT) (q : HostCalls) : Option HostCalls :=
  if q.maxCalls ≤ q.calls.length then none
  else
    match q.charge bytes with
    | none => none
    | some q =>
      some { q with
        calls := q.calls ++ [⟨id, bytes⟩]
        admitted := q.admitted ++ [id]
        charged := Function.update q.charged id (q.charged id + bytes.toNat) }

/-- Charge an admitted call's answer. A refused one rejects the call with the reason. -/
def reserve (i : Nat) (bytes : SizeT) (q : HostCalls) : HostCalls :=
  match q.calls[i]? with
  | none => { q with fault := true }
  | some c =>
    match q.charge bytes with
    | none => q
    | some q =>
      { q with
        calls := q.calls.set i { c with bytes := c.bytes + bytes }
        charged := Function.update q.charged c.id (q.charged c.id + bytes.toNat) }

def release (i : Nat) (q : HostCalls) : HostCalls :=
  match q.calls[i]? with
  | none => { q with fault := true }
  | some c =>
    { q with
      callBytes := q.callBytes - c.bytes
      calls := swapRemove i q.calls
      removed := q.removed ++ [(c.id, c.bytes)] }

/-- What the host says to a call. -/
inductive AnswerKind where
  | parked
  | bytes
  | reject
  | throw
  deriving DecidableEq

/-- The rest of `host_call` once the host has spoken, down to where it may run the guest
again. -/
def answered (id : Nat) (rest : List CallFrame) (kind : AnswerKind) (len : SizeT) (q : HostCalls) :
    HostCalls :=
  match kind with
  | .parked =>
    { q with
      stack := rest
      parked := q.parked ++ [id] }
  | _ =>
    match q.findCall id with
    | none => { q with fault := true }
    | some i =>
      match kind with
      | .bytes => { (q.reserve i len).release i with stack := rest }
      | .throw => { q with stack := .throwing id i :: rest }
      | _ => { q.release i with stack := rest }

/-- `R_Settle`, up to the continuation. -/
def settle (id : Nat) (ok : Bool) (len : SizeT) (q : HostCalls) : HostCalls :=
  match q.findCall id with
  | none => q
  | some i =>
    let q' := if ok then q.reserve i len else q
    { q'.release i with parked := q.parked.erase id }

/-- Whether guest code may run: not while the host is asked. -/
def guestRuns (q : HostCalls) : Bool :=
  match q.stack with
  | .asking _ _ :: _ => false
  | _ => true

/-- `mint` is `host.call` up to its id, and `refuse` the end of one whose arguments `host_call`
did not take. -/
inductive Event where
  | mint
  | refuse
  | hostCall (payloadLen : SizeT)
  | named (ok : Bool)
  | answered (kind : AnswerKind) (len : SizeT)
  | thrown
  | settle (id : Nat) (ok : Bool) (len : SizeT)

def step (q : HostCalls) : Event → HostCalls
  | .mint =>
    if q.guestRuns then
      { q with
        callSeq := q.callSeq + 1
        stack := .minted (q.callSeq + 1) :: q.stack }
    else q
  | .refuse =>
    match q.stack with
    | .minted _ :: rest => { q with stack := rest }
    | _ => q
  | .hostCall payloadLen =>
    match q.stack with
    | .minted id :: rest =>
      match q.admitCall id payloadLen with
      | none => { q with stack := rest }
      | some q' => { q' with stack := .naming id (q'.calls.length - 1) :: rest }
    | _ => q
  | .named ok =>
    match q.stack with
    | .naming id i :: rest =>
      if ok then { q with stack := .asking id i :: rest } else { q.release i with stack := rest }
    | _ => q
  | .answered kind len =>
    match q.stack with
    | .asking id _ :: rest => q.answered id rest kind len
    | _ => q
  | .thrown =>
    match q.stack with
    | .throwing _ i :: rest => { q.release i with stack := rest }
    | _ => q
  | .settle id ok len => if q.stack = [] then q.settle id ok len else q

def run (q : HostCalls) (es : List Event) : HostCalls := es.foldl step q

/-! ### What the ledger keeps -/

end HostCalls

/-- The call a frame has in the table, and where. -/
def CallFrame.held : CallFrame → Option (Nat × Nat)
  | .minted _ => none
  | .naming id i => some (id, i)
  | .asking id i => some (id, i)
  | .throwing id i => some (id, i)

def CallFrame.fresh : CallFrame → Option Nat
  | .minted id => some id
  | _ => none

namespace HostCalls

/-- What holds of the ledger between two steps. -/
structure Kept (q : HostCalls) : Prop where
  count : q.calls.length ≤ q.maxCalls
  sum : (q.calls.map fun c => c.bytes.toNat).sum = q.callBytes.toNat
  cap : q.callBytes ≤ q.maxBytes
  /-- A frame's index is where its call is. -/
  placed : ∀ p ∈ q.stack.filterMap CallFrame.held, (q.calls[p.2]?).map LedgerCall.id = some p.1
  /-- A frame's call is above those of the frames it runs in. -/
  nested : (q.stack.filterMap CallFrame.held).Pairwise fun a b => b.2 < a.2
  fresh : ∀ id ∈ q.stack.filterMap CallFrame.fresh, id ≤ q.callSeq ∧ id ∉ q.admitted
  minted : (q.stack.filterMap CallFrame.fresh).Nodup
  old : ∀ id ∈ q.admitted, id ≤ q.callSeq
  once : q.admitted.Nodup
  /-- Every call admitted is in the table, or left it once. -/
  custody : (q.calls.map LedgerCall.id ++ q.removed.map Prod.fst).Perm q.admitted
  /-- Every call in the table is parked, or on the stack. -/
  located : (q.calls.map LedgerCall.id).Perm
    (q.parked ++ (q.stack.filterMap CallFrame.held).map Prod.fst)
  exact : ∀ c ∈ q.calls, q.charged c.id = c.bytes.toNat
  given : ∀ r ∈ q.removed, q.charged r.1 = r.2.toNat
  uncharged : ∀ id, id ∉ q.admitted → q.charged id = 0
  unfaulted : q.fault = false

theorem kept_init (maxCalls : Nat) (maxBytes : SizeT) : (init maxCalls maxBytes).Kept where
  count := Nat.zero_le _
  sum := rfl
  cap := UInt32.zero_le
  placed := by simp [init]
  nested := List.Pairwise.nil
  fresh := by simp [init]
  minted := List.nodup_nil
  old := by simp [init]
  once := List.nodup_nil
  custody := List.Perm.refl _
  located := List.Perm.refl _
  exact := by simp [init]
  given := by simp [init]
  uncharged := fun _ _ => rfl
  unfaulted := rfl

section Moves

variable {q : HostCalls}

theorem Kept.nodup (h : q.Kept) : (q.calls.map LedgerCall.id).Nodup :=
  (List.nodup_append.1 (h.custody.nodup_iff.2 h.once)).1

/-- A charge that is taken fits what is left, and nothing wraps. -/
theorem charge_spec {bytes : SizeT} {q' : HostCalls} (h : q.callBytes ≤ q.maxBytes)
    (hc : q.charge bytes = some q') :
    q' = { q with callBytes := q.callBytes + bytes } ∧
      (q.callBytes + bytes).toNat = q.callBytes.toNat + bytes.toNat ∧
      q.callBytes + bytes ≤ q.maxBytes := by
  unfold charge at hc
  split at hc
  · cases hc
  · rename_i hfit
    have hle : q.callBytes.toNat ≤ q.maxBytes.toNat := UInt32.le_iff_toNat_le.1 h
    rw [UInt32.lt_iff_toNat_lt, UInt32.toNat_sub_of_le _ _ h] at hfit
    have hmax := q.maxBytes.toNat_lt
    have hadd : (q.callBytes + bytes).toNat = q.callBytes.toNat + bytes.toNat := by
      rw [UInt32.toNat_add, Nat.mod_eq_of_lt (by omega)]
    refine ⟨(Option.some.inj hc).symm, hadd, ?_⟩
    rw [UInt32.le_iff_toNat_le, hadd]
    omega

/-- A call leaves the table, and its bytes go back with it. -/
theorem Kept.release {i : Nat} {c : LedgerCall} {x : List CallFrame} {y : List Nat} (h : q.Kept)
    (hc : q.calls[i]? = some c) (hst : x.Sublist q.stack)
    (hbelow : ∀ p ∈ x.filterMap CallFrame.held, p.2 < i)
    (hloc : (c.id :: (y ++ (x.filterMap CallFrame.held).map Prod.fst)).Perm
      (q.parked ++ (q.stack.filterMap CallFrame.held).map Prod.fst)) :
    Kept { q.release i with
      stack := x
      parked := y } := by
  have hi : i < q.calls.length := (List.getElem?_eq_some_iff.1 hc).1
  have hperm := cons_swapRemove_perm hc
  have hlen := hperm.length_eq
  have hids := hperm.map LedgerCall.id
  have hsum := (hperm.map fun c => c.bytes.toNat).sum_eq
  simp only [List.map_cons, List.sum_cons, h.sum] at hsum
  have hheld : (x.filterMap CallFrame.held).Sublist (q.stack.filterMap CallFrame.held) :=
    hst.filterMap _
  have hfresh : (x.filterMap CallFrame.fresh).Sublist (q.stack.filterMap CallFrame.fresh) :=
    hst.filterMap _
  simp only [HostCalls.release, hc]
  refine ⟨?_, ?_, ?_, fun p hp => ?_, h.nested.sublist hheld, fun id hid => h.fresh id (hfresh.subset hid),
    h.minted.sublist hfresh, h.old, h.once, ?_, ?_, fun d hd => ?_, fun r hr => ?_, h.uncharged,
    h.unfaulted⟩
  · have := h.count
    simp only [List.length_cons] at hlen
    simp only
    omega
  · have hle : c.bytes ≤ q.callBytes := by
      rw [UInt32.le_iff_toNat_le]
      omega
    simp only
    rw [UInt32.toNat_sub_of_le _ _ hle]
    omega
  · have hle : c.bytes ≤ q.callBytes := by
      rw [UInt32.le_iff_toNat_le]
      omega
    have hcap := UInt32.le_iff_toNat_le.1 h.cap
    simp only
    rw [UInt32.le_iff_toNat_le, UInt32.toNat_sub_of_le _ _ hle]
    omega
  · have := h.placed p (hheld.subset hp)
    simp only
    rwa [swapRemove_below (hbelow p hp) hi]
  · refine List.Perm.trans ?_ h.custody
    simp only [List.map_append, List.map_cons, List.map_nil]
    calc
      ((swapRemove i q.calls).map LedgerCall.id ++ (q.removed.map Prod.fst ++ [c.id])).Perm
          ((c.id :: (swapRemove i q.calls).map LedgerCall.id) ++ q.removed.map Prod.fst) := by
        rw [← List.append_assoc]
        exact List.perm_append_singleton _ _
      List.Perm _ (q.calls.map LedgerCall.id ++ q.removed.map Prod.fst) := hids.append_right _
  · have hall : (c.id :: (swapRemove i q.calls).map LedgerCall.id).Perm
        (c.id :: (y ++ (x.filterMap CallFrame.held).map Prod.fst)) :=
      (hids.trans h.located).trans hloc.symm
    exact hall.cons_inv
  · exact h.exact d (hperm.subset (List.mem_cons_of_mem c hd))
  · rcases List.mem_append.1 hr with hr | hr
    · exact h.given r hr
    · obtain rfl := List.mem_singleton.1 hr
      exact h.exact c (List.mem_of_getElem? hc)

/-- The frame on top lets its call go. -/
theorem Kept.pop {f : CallFrame} {st : List CallFrame} {id i : Nat} (h : q.Kept)
    (hst : q.stack = f :: st) (hf : f.held = some (id, i)) :
    Kept { q.release i with stack := st } := by
  have hheld : q.stack.filterMap CallFrame.held = (id, i) :: st.filterMap CallFrame.held := by
    rw [hst, List.filterMap_cons_some hf]
  have hplaced := h.placed (id, i) (by rw [hheld]; exact List.mem_cons_self)
  obtain ⟨c, hc, hid⟩ := Option.map_eq_some_iff.1 hplaced
  have hnested := h.nested
  rw [hheld, List.pairwise_cons] at hnested
  have := h.release (x := st) (y := q.parked) hc (hst ▸ List.sublist_cons_self f st)
    (fun p hp => hnested.1 p hp) (by
      rw [hheld, hid]
      exact List.perm_middle.symm)
  have heq : (q.release i).parked = q.parked := by
    simp only [HostCalls.release, hc]
  rw [← heq] at this
  exact this

theorem findCall_spec {id i : Nat} (h : q.findCall id = some i) :
    ∃ c, q.calls[i]? = some c ∧ c.id = id := by
  obtain ⟨hi, hc, -⟩ := List.findIdx?_eq_some_iff_getElem.1 h
  exact ⟨q.calls[i], List.getElem?_eq_getElem hi, by simpa using hc⟩

/-- A call on the stack is found where its frame has it. -/
theorem Kept.findCall {id i : Nat} (h : q.Kept) (hp : (q.calls[i]?).map LedgerCall.id = some id) :
    q.findCall id = some i := by
  obtain ⟨c, hc, hid⟩ := Option.map_eq_some_iff.1 hp
  cases hf : q.findCall id with
  | none =>
    have := List.findIdx?_eq_none_iff.1 hf c (List.mem_of_getElem? hc)
    simp [hid] at this
  | some j =>
    obtain ⟨d, hd, hdid⟩ := findCall_spec hf
    have hij : (q.calls.map LedgerCall.id)[j]? = (q.calls.map LedgerCall.id)[i]? := by
      rw [List.getElem?_map, List.getElem?_map, hc, hd]
      simp [hid, hdid]
    have hj : j < (q.calls.map LedgerCall.id).length := by
      rw [List.length_map]
      exact (List.getElem?_eq_some_iff.1 hd).1
    rw [(List.getElem?_inj hj h.nodup).1 hij]

/-- The bytes of an answer are charged to its call, if they fit. -/
theorem Kept.reserve {i : Nat} {c : LedgerCall} (h : q.Kept) (hc : q.calls[i]? = some c)
    (bytes : SizeT) :
    (q.reserve i bytes).Kept ∧ (q.reserve i bytes).stack = q.stack ∧
      (q.reserve i bytes).parked = q.parked ∧
      (((q.reserve i bytes).calls[i]?).map LedgerCall.id) = some c.id := by
  simp only [HostCalls.reserve, hc]
  cases hch : q.charge bytes with
  | none => exact ⟨h, rfl, rfl, by simp [hc]⟩
  | some q' =>
    obtain ⟨rfl, hadd, hcap⟩ := charge_spec h.cap hch
    obtain ⟨hi, rfl⟩ := List.getElem?_eq_some_iff.1 hc
    have hbytes : (q.calls[i].bytes + bytes).toNat = q.calls[i].bytes.toNat + bytes.toNat := by
      have hle : q.calls[i].bytes.toNat ≤ (q.calls.map fun c => c.bytes.toNat).sum :=
        List.single_le_sum (fun _ _ => Nat.zero_le _) _ (List.mem_map_of_mem (List.getElem_mem hi))
      have hmax := (q.callBytes + bytes).toNat_lt
      rw [h.sum] at hle
      rw [UInt32.toNat_add, Nat.mod_eq_of_lt (by omega)]
    have hids : (q.calls.set i { q.calls[i] with bytes := q.calls[i].bytes + bytes }).map LedgerCall.id =
        q.calls.map LedgerCall.id := by
      rw [List.map_set]
      simp only
      rw [← List.getElem_map LedgerCall.id (h := by simpa using hi), List.set_getElem_self]
    have hplaces : ∀ j : Nat, ((q.calls.set i { q.calls[i] with bytes := q.calls[i].bytes + bytes })[j]?).map
        LedgerCall.id = (q.calls[j]?).map LedgerCall.id := by
      intro j
      rw [← List.getElem?_map, hids, List.getElem?_map]
    have hne : ∀ d ∈ q.calls.eraseIdx i, d.id ≠ q.calls[i].id := by
      have hperm := (List.getElem_cons_eraseIdx_perm hi).map LedgerCall.id
      have hnd := hperm.nodup_iff.2 h.nodup
      rw [List.map_cons, List.nodup_cons] at hnd
      intro d hd hid
      exact hnd.1 (hid ▸ List.mem_map_of_mem hd)
    have hset : (q.calls.set i { q.calls[i] with bytes := q.calls[i].bytes + bytes }).Perm
        ({ q.calls[i] with bytes := q.calls[i].bytes + bytes } :: q.calls.eraseIdx i) := by
      rw [List.set_eq_take_append_cons_drop, if_pos hi, List.eraseIdx_eq_take_drop_succ]
      exact List.perm_middle
    refine ⟨⟨?_, ?_, hcap, fun p hp => ?_, h.nested, h.fresh, h.minted, h.old, h.once, ?_, ?_,
      fun d hd => ?_, fun r hr => ?_, fun id hid => ?_, h.unfaulted⟩, rfl, rfl, ?_⟩
    · simpa using h.count
    · have h1 := (hset.map fun c => c.bytes.toNat).sum_eq
      have h2 := ((List.getElem_cons_eraseIdx_perm hi).map fun c => c.bytes.toNat).sum_eq
      simp only [List.map_cons, List.sum_cons, hbytes] at h1 h2
      have hs := h.sum
      simp only
      omega
    · simp only
      rw [hplaces]
      exact h.placed p hp
    · simp only
      rw [hids]
      exact h.custody
    · simp only
      rw [hids]
      exact h.located
    · rcases List.mem_cons.1 (hset.subset hd) with rfl | hd
      · simp only [Function.update_self, hbytes]
        rw [h.exact _ (List.getElem_mem hi)]
      · simp only
        rw [Function.update_of_ne (hne d hd)]
        exact h.exact d (List.mem_of_mem_eraseIdx hd)
    · have hout : r.1 ≠ q.calls[i].id := by
        intro hr'
        have hnd := List.nodup_append.1 (h.custody.nodup_iff.2 h.once)
        exact hnd.2.2 _ (List.mem_map_of_mem (List.getElem_mem hi)) _ (List.mem_map_of_mem hr) hr'.symm
      simp only
      rw [Function.update_of_ne hout]
      exact h.given r hr
    · have hin : q.calls[i].id ∈ q.admitted :=
        h.custody.subset (List.mem_append_left _ (List.mem_map_of_mem (List.getElem_mem hi)))
      have hne' : id ≠ q.calls[i].id := fun heq => hid (heq ▸ hin)
      simp only
      rw [Function.update_of_ne hne']
      exact h.uncharged id hid
    · simp only
      rw [hplaces, hc]
      rfl

/-- A call is admitted at the end of the table. -/
theorem Kept.admitCall {id : Nat} {bytes : SizeT} {q' : HostCalls} {rest : List CallFrame} (h : q.Kept)
    (hst : q.stack = .minted id :: rest) (ha : q.admitCall id bytes = some q') :
    Kept { q' with stack := .naming id (q'.calls.length - 1) :: rest } := by
  simp only [HostCalls.admitCall] at ha
  split at ha
  · cases ha
  · rename_i hroom
    split at ha
    · cases ha
    · rename_i q'' hch
      obtain ⟨rfl, hadd, hcap⟩ := charge_spec h.cap hch
      obtain rfl := Option.some.inj ha
      have hheld : q.stack.filterMap CallFrame.held = rest.filterMap CallFrame.held := by
        rw [hst]
        exact List.filterMap_cons_none rfl
      have hfresh : q.stack.filterMap CallFrame.fresh = id :: rest.filterMap CallFrame.fresh := by
        rw [hst]
        exact List.filterMap_cons_some rfl
      obtain ⟨hseq, hnew⟩ := h.fresh id (by rw [hfresh]; exact List.mem_cons_self)
      have hminted := h.minted
      rw [hfresh, List.nodup_cons] at hminted
      have hcalls : ∀ c ∈ q.calls, c.id ≠ id := by
        intro c hc hid
        refine hnew (h.custody.subset (List.mem_append_left _ ?_))
        exact hid ▸ List.mem_map_of_mem hc
      have hremoved : ∀ r ∈ q.removed, r.1 ≠ id := by
        intro r hr hid
        refine hnew (h.custody.subset (List.mem_append_right _ ?_))
        exact hid ▸ List.mem_map_of_mem hr
      have hzero : q.charged id = 0 := h.uncharged id hnew
      have hplace : ∀ p ∈ rest.filterMap CallFrame.held, p.2 < q.calls.length := by
        intro p hp
        obtain ⟨c, hc, -⟩ := Option.map_eq_some_iff.1 (h.placed p (by rwa [hheld]))
        exact (List.getElem?_eq_some_iff.1 hc).1
      have hlast : (q.calls ++ [(⟨id, bytes⟩ : LedgerCall)]).length - 1 = q.calls.length := by simp
      have hheld' : (CallFrame.naming id q.calls.length :: rest).filterMap CallFrame.held =
          (id, q.calls.length) :: rest.filterMap CallFrame.held := List.filterMap_cons_some rfl
      have hfresh' : (CallFrame.naming id q.calls.length :: rest).filterMap CallFrame.fresh =
          rest.filterMap CallFrame.fresh := List.filterMap_cons_none rfl
      simp only [hlast]
      refine ⟨?_, ?_, hcap, fun p hp => ?_, ?_, fun j hj => ?_, ?_, fun j hj => ?_, ?_, ?_, ?_,
        fun c hc => ?_, fun r hr => ?_, fun j hj => ?_, h.unfaulted⟩
      · simp only [List.length_append, List.length_singleton]
        omega
      · simp only [List.map_append, List.map_cons, List.map_nil, List.sum_append, List.sum_singleton,
          h.sum]
        exact hadd.symm
      · rw [hheld'] at hp
        rcases List.mem_cons.1 hp with rfl | hp
        · simp
        · simp only
          rw [List.getElem?_append_left (hplace p hp)]
          exact h.placed p (by rwa [hheld])
      · rw [hheld', List.pairwise_cons]
        exact ⟨fun p hp => hplace p hp, hheld ▸ h.nested⟩
      · rw [hfresh'] at hj
        obtain ⟨h1, h2⟩ := h.fresh j (by rw [hfresh]; exact List.mem_cons_of_mem id hj)
        refine ⟨h1, fun hin => ?_⟩
        rcases List.mem_append.1 hin with hin | hin
        · exact h2 hin
        · exact hminted.1 (List.mem_singleton.1 hin ▸ hj)
      · rw [hfresh']
        exact hminted.2
      · rcases List.mem_append.1 hj with hj | hj
        · exact h.old j hj
        · exact List.mem_singleton.1 hj ▸ hseq
      · refine List.nodup_append.2 ⟨h.once, List.nodup_singleton _, fun a ha' b hb hab => ?_⟩
        exact hnew (List.mem_singleton.1 hb ▸ hab ▸ ha')
      · simp only [List.map_append, List.map_cons, List.map_nil]
        calc
          (q.calls.map LedgerCall.id ++ [id] ++ q.removed.map Prod.fst).Perm
              (id :: (q.calls.map LedgerCall.id ++ q.removed.map Prod.fst)) := by
            rw [List.append_assoc]
            exact List.perm_middle
          List.Perm _ (id :: q.admitted) := h.custody.cons id
          List.Perm _ (q.admitted ++ [id]) := (List.perm_append_singleton id _).symm
      · have hloc := h.located
        rw [hheld] at hloc
        simp only [List.map_append, List.map_cons, List.map_nil, hheld']
        calc
          (q.calls.map LedgerCall.id ++ [id]).Perm (id :: q.calls.map LedgerCall.id) :=
            List.perm_append_singleton id _
          List.Perm _ (id :: (q.parked ++ (rest.filterMap CallFrame.held).map Prod.fst)) := hloc.cons id
          List.Perm _ (q.parked ++ id :: (rest.filterMap CallFrame.held).map Prod.fst) :=
            List.perm_middle.symm
      · rcases List.mem_append.1 hc with hc | hc
        · simp only
          rw [Function.update_of_ne (hcalls c hc)]
          exact h.exact c hc
        · obtain rfl := List.mem_singleton.1 hc
          simp [hzero]
      · simp only
        rw [Function.update_of_ne (hremoved r hr)]
        exact h.given r hr
      · have hji : j ≠ id := by
          rintro rfl
          exact hj (List.mem_append_right _ (List.mem_singleton.2 rfl))
        simp only
        rw [Function.update_of_ne hji]
        exact h.uncharged j fun hin => hj (List.mem_append_left _ hin)

/-- The stack moves and the table does not. -/
theorem Kept.restack {n : Nat} {st : List CallFrame} {pk : List Nat} (h : q.Kept)
    (hn : q.callSeq ≤ n)
    (hheld : (st.filterMap CallFrame.held).Sublist (q.stack.filterMap CallFrame.held))
    (hloc : (q.parked ++ (q.stack.filterMap CallFrame.held).map Prod.fst).Perm
      (pk ++ (st.filterMap CallFrame.held).map Prod.fst))
    (hfresh : ∀ id ∈ st.filterMap CallFrame.fresh, id ≤ n ∧ id ∉ q.admitted)
    (hminted : (st.filterMap CallFrame.fresh).Nodup) :
    Kept { q with
      callSeq := n
      stack := st
      parked := pk } :=
  { h with
    placed := fun p hp => h.placed p (hheld.subset hp)
    nested := h.nested.sublist hheld
    fresh := hfresh
    minted := hminted
    old := fun id hid => (h.old id hid).trans hn
    located := h.located.trans hloc }

/-- A frame gives way to one for the same call. -/
theorem Kept.swap {f g : CallFrame} {rest : List CallFrame} (h : q.Kept) (hst : q.stack = f :: rest)
    (hheld : g.held = f.held) (hfresh : g.fresh = f.fresh) : Kept { q with stack := g :: rest } := by
  have h1 : (g :: rest).filterMap CallFrame.held = q.stack.filterMap CallFrame.held := by
    simp only [hst, List.filterMap_cons, hheld]
  have h2 : (g :: rest).filterMap CallFrame.fresh = q.stack.filterMap CallFrame.fresh := by
    simp only [hst, List.filterMap_cons, hfresh]
  refine h.restack (le_refl _) (h1 ▸ List.Sublist.refl _) (h1 ▸ List.Perm.refl _) ?_ ?_
  · rw [h2]
    exact h.fresh
  · rw [h2]
    exact h.minted

/-- A frame that has no call in the table is left. -/
theorem Kept.dropFrame {f : CallFrame} {rest : List CallFrame} (h : q.Kept) (hst : q.stack = f :: rest)
    (hf : f.held = none) : Kept { q with stack := rest } := by
  have h1 : rest.filterMap CallFrame.held = q.stack.filterMap CallFrame.held := by
    rw [hst, List.filterMap_cons_none hf]
  have h2 : (rest.filterMap CallFrame.fresh).Sublist (q.stack.filterMap CallFrame.fresh) := by
    rw [hst]
    exact (List.sublist_cons_self f rest).filterMap _
  exact h.restack (le_refl _) (h1 ▸ List.Sublist.refl _) (h1 ▸ List.Perm.refl _)
    (fun id hid => h.fresh id (h2.subset hid)) (h.minted.sublist h2)

theorem Kept.mint (h : q.Kept) : Kept { q with
    callSeq := q.callSeq + 1
    stack := .minted (q.callSeq + 1) :: q.stack } := by
  have h1 : (CallFrame.minted (q.callSeq + 1) :: q.stack).filterMap CallFrame.held =
      q.stack.filterMap CallFrame.held := List.filterMap_cons_none rfl
  have h2 : (CallFrame.minted (q.callSeq + 1) :: q.stack).filterMap CallFrame.fresh =
      (q.callSeq + 1) :: q.stack.filterMap CallFrame.fresh := List.filterMap_cons_some rfl
  refine h.restack (Nat.le_succ _) (h1 ▸ List.Sublist.refl _) (h1 ▸ List.Perm.refl _) ?_ ?_
  · rw [h2]
    intro id hid
    rcases List.mem_cons.1 hid with rfl | hid
    · refine ⟨le_refl _, fun hin => ?_⟩
      have := h.old _ hin
      omega
    · obtain ⟨h3, h4⟩ := h.fresh id hid
      exact ⟨by omega, h4⟩
  · rw [h2, List.nodup_cons]
    refine ⟨fun hin => ?_, h.minted⟩
    have := (h.fresh _ hin).1
    omega

theorem Kept.answered {id i : Nat} {rest : List CallFrame} (h : q.Kept)
    (hst : q.stack = .asking id i :: rest) (kind : AnswerKind) (len : SizeT) :
    (q.answered id rest kind len).Kept := by
  have hheld : q.stack.filterMap CallFrame.held = (id, i) :: rest.filterMap CallFrame.held := by
    rw [hst]
    exact List.filterMap_cons_some rfl
  have hfresh : q.stack.filterMap CallFrame.fresh = rest.filterMap CallFrame.fresh := by
    rw [hst]
    exact List.filterMap_cons_none rfl
  have hplaced := h.placed (id, i) (by rw [hheld]; exact List.mem_cons_self)
  have hfind := h.findCall hplaced
  cases kind with
  | parked =>
    refine h.restack (le_refl _) (hheld ▸ List.sublist_cons_self _ _) ?_ ?_ ?_
    · rw [hheld, List.append_assoc]
      exact List.Perm.refl _
    · rw [← hfresh]
      exact h.fresh
    · rw [← hfresh]
      exact h.minted
  | bytes =>
    simp only [HostCalls.answered, hfind]
    obtain ⟨c, hc, -⟩ := Option.map_eq_some_iff.1 hplaced
    obtain ⟨hk, hs, -, -⟩ := h.reserve hc len
    exact hk.pop (hs.trans hst) rfl
  | reject =>
    simp only [HostCalls.answered, hfind]
    exact h.pop hst rfl
  | throw =>
    simp only [HostCalls.answered, hfind]
    exact h.swap hst rfl rfl

theorem Kept.settle (h : q.Kept) (hst : q.stack = []) (id : Nat) (ok : Bool) (len : SizeT) :
    (q.settle id ok len).Kept := by
  unfold HostCalls.settle
  cases hf : q.findCall id with
  | none => exact h
  | some i =>
    obtain ⟨c, hc, hid⟩ := findCall_spec hf
    have hin : id ∈ q.parked := by
      have := h.located.subset (List.mem_map_of_mem (List.mem_of_getElem? hc))
      rw [hst] at this
      simpa [hid] using this
    have hmain : ∀ q' : HostCalls, q'.Kept → q'.stack = [] → q'.parked = q.parked →
        (q'.calls[i]?).map LedgerCall.id = some id →
        Kept { q'.release i with parked := q.parked.erase id } := by
      intro q' hk hs hp hid'
      obtain ⟨d, hd, hdid⟩ := Option.map_eq_some_iff.1 hid'
      have := hk.release (x := []) (y := q.parked.erase id) hd (List.nil_sublist _) (by simp) (by
        rw [hs, hp, hdid]
        simpa using (List.perm_cons_erase hin).symm)
      have heq : (q'.release i).stack = [] := by
        simp only [HostCalls.release, hd]
        exact hs
      rw [← heq] at this
      exact this
    cases ok with
    | false => exact hmain q h hst rfl (by simp [hc, hid])
    | true =>
      obtain ⟨hk, hs, hp, hi⟩ := h.reserve hc len
      exact hmain _ hk (hs.trans hst) hp (hi.trans (by rw [hid]))

end Moves

/-! ### Runs -/

theorem Kept.step {q : HostCalls} (h : q.Kept) (e : Event) : (q.step e).Kept := by
  cases e with
  | mint =>
    simp only [HostCalls.step]
    split
    · exact h.mint
    · exact h
  | refuse =>
    simp only [HostCalls.step]
    split
    · rename_i id rest hst
      exact h.dropFrame hst rfl
    · exact h
  | hostCall payloadLen =>
    simp only [HostCalls.step]
    split
    · rename_i id rest hst
      cases ha : q.admitCall id payloadLen with
      | none => exact h.dropFrame hst rfl
      | some q' => exact h.admitCall hst ha
    · exact h
  | named ok =>
    simp only [HostCalls.step]
    split
    · rename_i id i rest hst
      split
      · exact h.swap hst rfl rfl
      · exact h.pop hst rfl
    · exact h
  | answered kind len =>
    simp only [HostCalls.step]
    split
    · rename_i id i rest hst
      exact h.answered hst kind len
    · exact h
  | thrown =>
    simp only [HostCalls.step]
    split
    · rename_i id i rest hst
      exact h.pop hst rfl
    · exact h
  | settle id ok len =>
    simp only [HostCalls.step]
    split
    · rename_i hst
      exact h.settle hst id ok len
    · exact h

theorem Kept.run {q : HostCalls} (h : q.Kept) (es : List Event) : (q.run es).Kept := by
  induction es generalizing q with
  | nil => exact h
  | cons e es ih => exact ih (h.step e)

/-- The ledger's books are right. -/
structure Balanced (q : HostCalls) : Prop where
  count : q.calls.length ≤ q.maxCalls
  sum : (q.calls.map fun c => c.bytes.toNat).sum = q.callBytes.toNat
  cap : q.callBytes ≤ q.maxBytes
  /-- What is left of the allowance does not wrap. -/
  left : (q.maxBytes - q.callBytes).toNat = q.maxBytes.toNat - q.callBytes.toNat
  distinct : (q.calls.map LedgerCall.id).Nodup
  /-- A call that was admitted is in the table or was removed, once and with what it was
  charged. -/
  custody : (q.calls.map LedgerCall.id ++ q.removed.map Prod.fst).Perm q.admitted
  once : q.admitted.Nodup
  exact : ∀ r ∈ q.removed, q.charged r.1 = r.2.toNat
  /-- With no call parked or on the stack nothing is counted. -/
  zero : q.parked = [] → q.stack.filterMap CallFrame.held = [] → q.calls = [] ∧ q.callBytes = 0
  /-- No index outside the table is ever used. -/
  unfaulted : q.fault = false

theorem Kept.balanced {q : HostCalls} (h : q.Kept) : q.Balanced where
  count := h.count
  sum := h.sum
  cap := h.cap
  left := UInt32.toNat_sub_of_le _ _ h.cap
  distinct := h.nodup
  custody := h.custody
  once := h.once
  exact := h.given
  zero := by
    intro hp hs
    have hloc := h.located
    rw [hp, hs] at hloc
    have hnil : q.calls = [] := by
      have := hloc.length_eq
      simpa using this
    refine ⟨hnil, ?_⟩
    have hsum := h.sum
    rw [hnil] at hsum
    exact UInt32.toNat_inj.1 hsum.symm
  unfaulted := h.unfaulted

/-- Every run of host calls and settlements leaves the ledger balanced. -/
theorem run_balanced (maxCalls : Nat) (maxBytes : SizeT) (es : List Event) :
    ((init maxCalls maxBytes).run es).Balanced :=
  ((kept_init maxCalls maxBytes).run es).balanced

end HostCalls

end SeedTransport
