import Mathlib

set_option autoImplicit false

namespace SeedTransport

/-! What the driver holds for the wire (`services/link.ts`): the write sizes of each link until
its adapter reports them drained, against a ceiling per link and one for the node. -/

namespace Outbound

def maxLinkReadBytes : Nat := 2 * 1024 * 1024
def maxOutboundQueueBytes : Nat := 8 * maxLinkReadBytes
def maxOutboundQueueSlices : Nat := 4096
def maxNodeOutboundQueueBytes : Nat := 4 * maxOutboundQueueBytes
def maxNodeOutboundQueueSlices : Nat := 4 * maxOutboundQueueSlices

/-- What asking an adapter for its backlog comes to: it has no `buffered`, it throws, it
answers an integer, or something that is none. Asking changes nothing. -/
inductive Buffered where
  | missing
  | threw
  | answered (n : Int)
  | nonsense
  deriving DecidableEq

/-- The adapter's backlog, or `none` when it cannot answer. -/
def Buffered.report : Buffered → Option Nat
  | .missing => some 0
  | .threw => none
  | .answered n => if 0 ≤ n ∧ n ≤ 2 ^ 53 - 1 then some n.toNat else none
  | .nonsense => none

structure LinkOutboundOwner where
  queued : List Nat
  charged : Int
  closed : Bool
  deriving DecidableEq

def LinkOutboundOwner.new : LinkOutboundOwner := ⟨[], 0, false⟩

/-- The loop of `settle`: how many of the oldest writes have left, and their bytes. -/
def drained (charged : Int) (now : Nat) : Nat → Int → List Nat → Nat × Int
  | n, bytes, [] => (n, bytes)
  | n, bytes, w :: rest =>
    if (now : Int) ≤ charged - bytes - w then drained charged now (n + 1) (bytes + w) rest
    else (n, bytes)

/-- One `settle` with an answer, as the owner was before and after it. -/
structure Settled where
  link : Nat
  now : Nat
  before : LinkOutboundOwner
  after : LinkOutboundOwner

/-- `links` is the table, and `owner` the entry made under each id, which outlives its place
there. `sending` are the adapters' `send`s that have not returned. The last three are for an
observer: the writes admitted and those released under each id, and every reconciliation. -/
structure TransportHost where
  maxRawLinks : Nat
  owner : Nat → LinkOutboundOwner
  links : List Nat
  nextLinkId : Nat
  bound : Bool
  closed : Bool
  outboundSlices : Int
  outboundBytes : Int
  sending : List Nat
  admitted : Nat → List Nat
  released : Nat → List Nat
  settled : List Settled

namespace TransportHost

def new (maxRawLinks : Nat) : TransportHost where
  maxRawLinks := maxRawLinks
  owner := fun _ => .new
  links := []
  nextLinkId := 1
  bound := false
  closed := false
  outboundSlices := 0
  outboundBytes := 0
  sending := []
  admitted := fun _ => []
  released := fun _ => []
  settled := []

def outboundFits (h : TransportHost) (length : Nat) : Bool :=
  decide (h.outboundSlices < maxNodeOutboundQueueSlices) &&
    decide ((length : Int) ≤ maxNodeOutboundQueueBytes - h.outboundBytes)

def releaseOutbound (h : TransportHost) (bytes : Int) (slices : Nat) : TransportHost :=
  { h with outboundBytes := h.outboundBytes - bytes, outboundSlices := h.outboundSlices - slices }

/-- `LinkOutboundOwner.settle` of one link. -/
def settle (h : TransportHost) (id : Nat) : Option Nat → TransportHost
  | none => h
  | some now =>
    let o := h.owner id
    let (n, bytes) := drained o.charged now 0 0 o.queued
    let o' := if n = 0 then o else { o with queued := o.queued.drop n, charged := o.charged - bytes }
    let h := if n = 0 then h else h.releaseOutbound bytes n
    { h with
      owner := Function.update h.owner id o'
      released := Function.update h.released id (h.released id ++ o.queued.take n)
      settled := ⟨id, now, o, o'⟩ :: h.settled }

/-- `releaseAll` of one link. -/
def releaseAll (h : TransportHost) (id : Nat) : TransportHost :=
  let o := h.owner id
  if o.closed then h
  else
    let h := h.releaseOutbound o.charged o.queued.length
    { h with
      owner := Function.update h.owner id ⟨[], 0, true⟩
      released := Function.update h.released id (h.released id ++ o.queued) }

/-- The sweep of `reserveOutbound`: every link of the table reconciles. -/
def reconcileAll (buffered : Nat → Buffered) (h : TransportHost) : TransportHost :=
  h.links.foldl (fun h id => h.settle id (buffered id).report) h

def reserveOutbound (h : TransportHost) (length : Nat) (buffered : Nat → Buffered) :
    TransportHost × Bool :=
  let h := if h.outboundFits length then h else h.reconcileAll buffered
  if h.outboundFits length then
    ({ h with outboundSlices := h.outboundSlices + 1, outboundBytes := h.outboundBytes + length },
      true)
  else (h, false)

/-- `channelClosed`, as far as it concerns what is held for the wire. -/
def channelClosed (h : TransportHost) (id : Nat) : TransportHost :=
  if id ∈ h.links then { h with links := h.links.erase id }.releaseAll id else h

/-- Over a copy of the table. -/
def reset (h : TransportHost) : TransportHost := h.links.foldl channelClosed h

def release (h : TransportHost) : TransportHost :=
  if h.bound then { h with bound := false }.reset else h

def activate (h : TransportHost) : TransportHost := { h.release with bound := true }

def close (h : TransportHost) : TransportHost :=
  if h.closed then h else { h with closed := true, bound := false }.reset

def register (h : TransportHost) : TransportHost :=
  if h.maxRawLinks ≤ h.links.length then h
  else
    { h with
      nextLinkId := h.nextLinkId + 1
      owner := Function.update h.owner h.nextLinkId .new
      links := h.links ++ [h.nextLinkId] }

/-- How a send stands when it reaches the adapter, or before. -/
inductive Sending where
  | threw
  | answer (backlog : Int)
  | writing
  deriving DecidableEq

/-- `LinkOutboundOwner.send`, up to the adapter's own `send`. `buffered` is what each adapter
answers when asked: this one's `first`, and those the node-wide refusal sweeps. -/
def beginSend (h : TransportHost) (id length : Nat) (first : Buffered)
    (buffered : Nat → Buffered) : TransportHost × Sending :=
  if (h.owner id).closed then (h, .threw)
  else
    match first.report with
    | none => (h, .threw)
    | some now =>
      let h := h.settle id (some now)
      let o := h.owner id
      if length = 0 then (h, .answer o.charged)
      else if maxOutboundQueueSlices ≤ o.queued.length ∨
          (maxOutboundQueueBytes : Int) - o.charged < length then (h, .threw)
      else
        match h.reserveOutbound length buffered with
        | (h, false) => (h, .threw)
        | (h, true) =>
          let o := h.owner id
          ({ h with
            owner := Function.update h.owner id
              { o with charged := o.charged + length, queued := o.queued ++ [length] }
            admitted := Function.update h.admitted id (h.admitted id ++ [length])
            sending := id :: h.sending }, .writing)

/-- `link/send`, up to the adapter's own `send`, with its answer if it does not come to that.
A throw drops the link. -/
def send (h : TransportHost) (id length : Nat) (first : Buffered) (buffered : Nat → Buffered) :
    TransportHost × Option Int :=
  if h.bound = false ∨ id ∉ h.links then (h, some 0)
  else
    match h.beginSend id length first buffered with
    | (h, .threw) => (h.channelClosed id, some 0)
    | (h, .answer backlog) => (h, some backlog)
    | (h, .writing) => (h, none)

/-- The adapter's `send` returns, and `link/send` answers. -/
def sent (h : TransportHost) (buffered : Buffered) : TransportHost × Int :=
  match h.sending with
  | [] => (h, 0)
  | id :: rest =>
    let h := { h with sending := rest }.settle id buffered.report
    (h, (h.owner id).charged)

/-- The adapter's `send` throws, whatever it wrote: the owner releases all, and the link is
dropped. -/
def sendThrew (h : TransportHost) : TransportHost × Int :=
  match h.sending with
  | [] => (h, 0)
  | id :: rest => (({ h with sending := rest }.releaseAll id).channelClosed id, 0)

/-- What happens to a driver. `channelClosed` is an adapter's `onClose`, the turn after a
`link/close` and a read side that fails; it may come while an adapter's `send` is running. -/
inductive Event where
  | register
  | send (id length : Nat) (first : Buffered) (buffered : Nat → Buffered)
  | sent (buffered : Buffered)
  | sendThrew
  | channelClosed (id : Nat)
  | activate
  | release
  | reset
  | close

def step (h : TransportHost) : Event → TransportHost
  | .register => if h.bound then h.register else h
  | .send id length first buffered => (h.send id length first buffered).1
  | .sent buffered => (h.sent buffered).1
  | .sendThrew => h.sendThrew.1
  | .channelClosed id => h.channelClosed id
  | .activate => h.activate
  | .release => h.release
  | .reset => h.reset
  | .close => h.close

def run (h : TransportHost) (events : List Event) : TransportHost := events.foldl step h

/-! ### What the driver holds -/

/-- The sum of a measure over the links of the table. -/
def total (h : TransportHost) (f : LinkOutboundOwner → Int) : Int :=
  (h.links.map fun id => f (h.owner id)).sum

end TransportHost

/-- An owner's charge is what it has queued, within the ceilings of a link. -/
structure LinkOutboundOwner.Owned (o : LinkOutboundOwner) : Prop where
  charged : o.charged = (o.queued.sum : Nat)
  bytes : o.charged ≤ maxOutboundQueueBytes
  slices : o.queued.length ≤ maxOutboundQueueSlices

/-- The charge left by a reconciliation covers what the adapter reported, as far as that was
admitted, and exceeds it by less than the oldest write that stays. -/
structure Settled.Reconciled (s : Settled) : Prop where
  least : min (s.now : Int) s.before.charged ≤ s.after.charged
  most : ∀ w, s.after.queued.head? = some w → s.after.charged < s.now + w
  none : s.after.queued = [] → s.after.charged = 0

structure TransportHost.Custody (h : TransportHost) : Prop where
  nodup : h.links.Nodup
  known : ∀ id ∈ h.links, id < h.nextLinkId
  opened : ∀ id ∈ h.links, (h.owner id).closed = false
  gone : ∀ id, id ∉ h.links → (h.owner id).queued = []
  owned : ∀ id, (h.owner id).Owned
  bytes : h.outboundBytes = h.total (·.charged)
  slices : h.outboundSlices = h.total (·.queued.length)
  nodeBytes : h.outboundBytes ≤ maxNodeOutboundQueueBytes
  nodeSlices : h.outboundSlices ≤ maxNodeOutboundQueueSlices
  once : ∀ id, h.admitted id = h.released id ++ (h.owner id).queued
  settled : ∀ s ∈ h.settled, s.Reconciled

section Drained

theorem drained_spec (charged : Int) (now : Nat) (l : List Nat) (n : Nat) (bytes : Int) :
    ∃ m ≤ l.length, drained charged now n bytes l = (n + m, bytes + ((l.take m).sum : Nat)) ∧
      (0 < m → (now : Int) ≤ charged - bytes - ((l.take m).sum : Nat)) ∧
      ∀ w, (l.drop m).head? = some w → charged - bytes - ((l.take m).sum : Nat) - w < now := by
  induction l generalizing n bytes with
  | nil => exact ⟨0, le_rfl, by simp [drained], by simp, by simp⟩
  | cons x rest ih =>
    by_cases hx : (now : Int) ≤ charged - bytes - x
    · obtain ⟨m, hm, he, hlow, hhigh⟩ := ih (n + 1) (bytes + x)
      refine ⟨m + 1, by simp; omega, ?_, ?_, ?_⟩
      · simp only [drained, if_pos hx, he, List.take_succ_cons, List.sum_cons, Nat.cast_add,
          Prod.mk.injEq]
        omega
      · intro _
        simp only [List.take_succ_cons, List.sum_cons, Nat.cast_add]
        rcases Nat.eq_zero_or_pos m with rfl | hpos
        · simp
          omega
        · have := hlow hpos
          omega
      · intro w hw
        have := hhigh w (by simpa using hw)
        simp only [List.take_succ_cons, List.sum_cons, Nat.cast_add]
        omega
    · refine ⟨0, by simp, by simp [drained, hx], by simp, ?_⟩
      intro w hw
      simp at hw ⊢
      omega

end Drained

theorem LinkOutboundOwner.owned_new : LinkOutboundOwner.new.Owned := by
  constructor <;> simp [LinkOutboundOwner.new]

theorem LinkOutboundOwner.owned_closed : (⟨[], 0, true⟩ : LinkOutboundOwner).Owned := by
  constructor <;> simp

theorem LinkOutboundOwner.Owned.nonneg {o : LinkOutboundOwner} (ho : o.Owned) : 0 ≤ o.charged := by
  rw [ho.charged]
  exact Int.natCast_nonneg _

namespace TransportHost

variable {h : TransportHost} {id : Nat}

theorem sum_erase {links : List Nat} (hid : id ∈ links) (f : Nat → Int) :
    ((links.erase id).map f).sum = (links.map f).sum - f id := by
  have hp := ((List.perm_cons_erase hid).map f).sum_eq
  simp at hp
  omega

theorem sum_update {links : List Nat} (hn : links.Nodup) (hid : id ∈ links)
    (owner : Nat → LinkOutboundOwner) (o : LinkOutboundOwner) (f : LinkOutboundOwner → Int) :
    (links.map fun j => f (Function.update owner id o j)).sum =
      (links.map fun j => f (owner j)).sum - f (owner id) + f o := by
  have hout := sum_erase hid fun j => f (owner j)
  have hin := sum_erase hid fun j => f (Function.update owner id o j)
  have hsame : (links.erase id).map (fun j => f (Function.update owner id o j)) =
      (links.erase id).map fun j => f (owner j) := by
    apply List.map_congr_left
    intro j hj
    have hne : j ≠ id := ((List.Nodup.mem_erase_iff hn).1 hj).1
    simp [hne]
  rw [hsame, hout] at hin
  simp at hin
  omega

theorem new_custody (maxRawLinks : Nat) : (new maxRawLinks).Custody where
  nodup := by simp [new]
  known := by simp [new]
  opened := by simp [new]
  gone := by simp [new, LinkOutboundOwner.new]
  owned := fun _ => LinkOutboundOwner.owned_new
  bytes := by simp [new, total]
  slices := by simp [new, total]
  nodeBytes := by simp [new]
  nodeSlices := by simp [new]
  once := by simp [new, LinkOutboundOwner.new]
  settled := by simp [new]

/-- The entry of a link of the table changes, and the counters with it. -/
theorem Custody.write (c : h.Custody) {h' : TransportHost} {o : LinkOutboundOwner}
    (hid : id ∈ h.links) (ho : o.Owned) (hopen : o.closed = false) (hlinks : h'.links = h.links)
    (hnext : h'.nextLinkId = h.nextLinkId) (howner : h'.owner = Function.update h.owner id o)
    (hbytes : h'.outboundBytes = h.outboundBytes - (h.owner id).charged + o.charged)
    (hslices : h'.outboundSlices = h.outboundSlices - (h.owner id).queued.length + o.queued.length)
    (hnode : h'.outboundBytes ≤ maxNodeOutboundQueueBytes)
    (hnode' : h'.outboundSlices ≤ maxNodeOutboundQueueSlices)
    (honce : ∀ j, h'.admitted j = h'.released j ++ (h'.owner j).queued)
    (hsettled : ∀ s ∈ h'.settled, s.Reconciled) : h'.Custody where
  nodup := by rw [hlinks]; exact c.nodup
  known := by rw [hlinks, hnext]; exact c.known
  opened := by
    intro j hj
    rw [hlinks] at hj
    rw [howner]
    by_cases hji : j = id
    · subst hji
      simpa using hopen
    · simpa [hji] using c.opened j hj
  gone := by
    intro j hj
    rw [hlinks] at hj
    have hji : j ≠ id := fun e => hj (e ▸ hid)
    rw [howner, Function.update_of_ne hji]
    exact c.gone j hj
  owned := by
    intro j
    rw [howner]
    by_cases hji : j = id
    · subst hji
      simpa using ho
    · simpa [hji] using c.owned j
  bytes := by
    have := c.bytes
    simp only [total] at this ⊢
    rw [hlinks, howner, sum_update c.nodup hid h.owner o (·.charged), hbytes, this]
  slices := by
    have := c.slices
    simp only [total] at this ⊢
    rw [hlinks, howner, sum_update c.nodup hid h.owner o (·.queued.length), hslices, this]
  nodeBytes := hnode
  nodeSlices := hnode'
  once := honce
  settled := hsettled

/-! ### Reconciliation -/

/-- What one `settle` does: it takes a prefix of the queue off, and its bytes off the charge. -/
theorem settle_cases (h : TransportHost) (id now : Nat) (ho : (h.owner id).Owned) :
    ∃ (o : LinkOutboundOwner) (m : Nat), m ≤ (h.owner id).queued.length ∧
      o = { h.owner id with
        queued := (h.owner id).queued.drop m
        charged := (h.owner id).charged - (((h.owner id).queued.take m).sum : Nat) } ∧
      (⟨id, now, h.owner id, o⟩ : Settled).Reconciled ∧
      h.settle id (some now) =
        { h with
          outboundBytes := h.outboundBytes - (((h.owner id).queued.take m).sum : Nat)
          outboundSlices := h.outboundSlices - m
          owner := Function.update h.owner id o
          released := Function.update h.released id
            (h.released id ++ (h.owner id).queued.take m)
          settled := ⟨id, now, h.owner id, o⟩ :: h.settled } := by
  obtain ⟨m, hm, he, hlow, hhigh⟩ :=
    drained_spec (h.owner id).charged now (h.owner id).queued 0 0
  simp only [zero_add, Int.sub_zero] at he hlow hhigh
  have hsum : ((h.owner id).queued.take m).sum + ((h.owner id).queued.drop m).sum =
      (h.owner id).queued.sum := by
    rw [← List.sum_append, List.take_append_drop]
  have hcharged := ho.charged
  refine ⟨_, m, hm, rfl, ⟨?_, ?_, ?_⟩, ?_⟩
  · rcases Nat.eq_zero_or_pos m with rfl | hpos
    · simp
    · have := hlow hpos
      simp only
      omega
  · intro w hw
    have := hhigh w hw
    simp only
    omega
  · intro hq
    simp only at hq ⊢
    rw [hq] at hsum
    simp at hsum
    omega
  · simp only [settle, he]
    rcases Nat.eq_zero_or_pos m with rfl | hpos
    · simp
    · have hne : m ≠ 0 := by omega
      simp [hne, releaseOutbound]

theorem Custody.settle (c : h.Custody) (id : Nat) (now : Option Nat) :
    (h.settle id now).Custody := by
  cases now with
  | none => exact c
  | some now =>
    obtain ⟨o, m, hm, ho, hr, he⟩ := settle_cases h id now (c.owned id)
    have hsum : ((h.owner id).queued.take m).sum + ((h.owner id).queued.drop m).sum =
        (h.owner id).queued.sum := by
      rw [← List.sum_append, List.take_append_drop]
    have hcharged := (c.owned id).charged
    have hbytes := (c.owned id).bytes
    have hslices := (c.owned id).slices
    have howned : o.Owned := by
      subst ho
      constructor
      · simp only
        omega
      · simp only
        omega
      · simp only [List.length_drop]
        omega
    have honce : ∀ j, (h.settle id (some now)).admitted j =
        (h.settle id (some now)).released j ++ ((h.settle id (some now)).owner j).queued := by
      intro j
      rw [he]
      by_cases hj : j = id
      · subst hj
        simpa [ho] using c.once j
      · simpa [hj] using c.once j
    have hsettled : ∀ s ∈ (h.settle id (some now)).settled, s.Reconciled := by
      rw [he]
      intro s hs
      rcases List.mem_cons.1 hs with rfl | hs
      · exact hr
      · exact c.settled s hs
    by_cases hid : id ∈ h.links
    · refine c.write (o := o) hid howned ?_ ?_ ?_ ?_ ?_ ?_ ?_ ?_ honce hsettled
      · rw [ho]
        exact c.opened id hid
      all_goals rw [he]
      · simp only [ho]
        omega
      · simp only [ho, List.length_drop]
        omega
      · have := c.nodeBytes
        simp only
        omega
      · have := c.nodeSlices
        simp only
        omega
    · -- a link that is gone has nothing to take off
      have hq := c.gone id hid
      have hm0 : m = 0 := by
        rw [hq] at hm
        simpa using hm
      have hsame : o = h.owner id := by
        subst hm0
        simp [ho]
      rw [hsame, hm0] at he
      rw [he] at honce hsettled ⊢
      simp only [Function.update_eq_self] at honce hsettled ⊢
      exact { c with
        bytes := by simpa [total] using c.bytes
        slices := by simpa [total] using c.slices
        nodeBytes := by simpa using c.nodeBytes
        nodeSlices := by simpa using c.nodeSlices
        once := honce
        settled := hsettled }

/-- What a reconciliation leaves of a driver: everything but charges, which shrink. -/
structure Shrunk (h h' : TransportHost) : Prop where
  links : h'.links = h.links
  sending : h'.sending = h.sending
  charged : ∀ id, (h'.owner id).charged ≤ (h.owner id).charged
  queued : ∀ id, (h'.owner id).queued.length ≤ (h.owner id).queued.length

theorem Shrunk.refl (h : TransportHost) : Shrunk h h :=
  ⟨rfl, rfl, fun _ => le_rfl, fun _ => le_rfl⟩

theorem Shrunk.trans {h h' h'' : TransportHost} (a : Shrunk h h') (b : Shrunk h' h'') :
    Shrunk h h'' where
  links := b.links.trans a.links
  sending := b.sending.trans a.sending
  charged := fun id => (b.charged id).trans (a.charged id)
  queued := fun id => (b.queued id).trans (a.queued id)

theorem Custody.settle_shrunk (c : h.Custody) (id : Nat) (now : Option Nat) :
    Shrunk h (h.settle id now) := by
  cases now with
  | none => exact Shrunk.refl h
  | some now =>
    obtain ⟨o, m, hm, ho, hr, he⟩ := settle_cases h id now (c.owned id)
    rw [he]
    refine ⟨rfl, rfl, ?_, ?_⟩ <;> intro j <;> by_cases hj : j = id
    · subst hj
      simp only [Function.update_self, ho]
      omega
    · simp [hj]
    · subst hj
      simp [ho]
    · simp [hj]

theorem Custody.reconcileAll (c : h.Custody) (buffered : Nat → Buffered) :
    (h.reconcileAll buffered).Custody ∧ Shrunk h (h.reconcileAll buffered) := by
  have sweep : ∀ (ids : List Nat) (h' : TransportHost), h'.Custody → Shrunk h h' →
      (ids.foldl (fun h id => h.settle id (buffered id).report) h').Custody ∧
        Shrunk h (ids.foldl (fun h id => h.settle id (buffered id).report) h') := by
    intro ids
    induction ids with
    | nil => intro h' c' hs; exact ⟨c', hs⟩
    | cons id rest ih =>
      intro h' c' hs
      exact ih _ (c'.settle id _) (hs.trans (c'.settle_shrunk id _))
  exact sweep h.links h c (Shrunk.refl h)

/-! ### Release -/

theorem Custody.releaseAll_gone (c : h.Custody) (hid : id ∉ h.links) : (h.releaseAll id).Custody := by
  have hq := c.gone id hid
  have hc : (h.owner id).charged = 0 := by
    rw [(c.owned id).charged, hq]
    rfl
  simp only [releaseAll]
  split
  · exact c
  · have honly : ∀ j ∈ h.links, Function.update h.owner id ⟨[], 0, true⟩ j = h.owner j := by
      intro j hj
      have hji : j ≠ id := fun e => hid (e ▸ hj)
      simp [hji]
    have htotal : ∀ f : LinkOutboundOwner → Int,
        (h.links.map fun j => f (Function.update h.owner id ⟨[], 0, true⟩ j)).sum = h.total f := by
      intro f
      simp only [total]
      congr 1
      exact List.map_congr_left fun j hj => by rw [honly j hj]
    simp only [releaseOutbound, hq, hc, List.append_nil, Function.update_eq_self, Int.sub_zero,
      List.length_nil, Nat.cast_zero]
    exact {
      nodup := c.nodup
      known := c.known
      opened := fun j hj => by
        simp only
        rw [honly j hj]
        exact c.opened j hj
      gone := fun j hj => by
        by_cases hji : j = id
        · subst hji
          simp
        · simpa [hji] using c.gone j hj
      owned := fun j => by
        by_cases hji : j = id
        · subst hji
          simpa using LinkOutboundOwner.owned_closed
        · simpa [hji] using c.owned j
      bytes := c.bytes.trans (htotal _).symm
      slices := c.slices.trans (htotal _).symm
      nodeBytes := c.nodeBytes
      nodeSlices := c.nodeSlices
      once := fun j => by
        by_cases hji : j = id
        · subst hji
          simpa [hq] using c.once j
        · simpa [hji] using c.once j
      settled := c.settled }

theorem Custody.channelClosed (c : h.Custody) (id : Nat) : (h.channelClosed id).Custody := by
  unfold TransportHost.channelClosed
  split
  · rename_i hid
    have hopen := c.opened id hid
    have hnode := c.nodeBytes
    have hnode' := c.nodeSlices
    have hnn := (c.owned id).nonneg
    have htotal : ∀ f : LinkOutboundOwner → Int,
        ((h.links.erase id).map fun j => f (Function.update h.owner id ⟨[], 0, true⟩ j)).sum =
          h.total f - f (h.owner id) := by
      intro f
      have hsame : (h.links.erase id).map
            (fun j => f (Function.update h.owner id ⟨[], 0, true⟩ j)) =
          (h.links.erase id).map fun j => f (h.owner j) := by
        apply List.map_congr_left
        intro j hj
        have hji : j ≠ id := ((List.Nodup.mem_erase_iff c.nodup).1 hj).1
        simp [hji]
      rw [hsame, sum_erase hid fun j => f (h.owner j)]
      rfl
    simp only [releaseAll, hopen, Bool.false_eq_true, if_false, releaseOutbound]
    exact {
      nodup := c.nodup.erase id
      known := fun j hj => c.known j (List.mem_of_mem_erase hj)
      opened := fun j hj => by
        obtain ⟨hji, hj⟩ := (List.Nodup.mem_erase_iff c.nodup).1 hj
        simpa [hji] using c.opened j hj
      gone := fun j hj => by
        by_cases hji : j = id
        · subst hji
          simp
        · have hj' : j ∉ h.links := fun hm => hj ((List.Nodup.mem_erase_iff c.nodup).2 ⟨hji, hm⟩)
          simpa [hji] using c.gone j hj'
      owned := fun j => by
        by_cases hji : j = id
        · subst hji
          simpa using LinkOutboundOwner.owned_closed
        · simpa [hji] using c.owned j
      bytes := by
        have := htotal (·.charged)
        simp only [total] at this ⊢
        rw [this, c.bytes]
        rfl
      slices := by
        have := htotal (·.queued.length)
        simp only [total] at this ⊢
        rw [this, c.slices]
        rfl
      nodeBytes := by
        simp only
        omega
      nodeSlices := by
        simp only
        omega
      once := fun j => by
        by_cases hji : j = id
        · subst hji
          simpa using c.once j
        · simpa [hji] using c.once j
      settled := c.settled }
  · exact c

/-- `releaseAll` before the link is dropped is the release its drop would make. -/
theorem releaseAll_channelClosed (hid : id ∈ h.links) :
    (h.releaseAll id).channelClosed id = h.channelClosed id := by
  cases hopen : (h.owner id).closed <;>
    simp [TransportHost.channelClosed, releaseAll, releaseOutbound, hid, hopen]

theorem Custody.reset (c : h.Custody) : h.reset.Custody := by
  have drop : ∀ (ids : List Nat) (h' : TransportHost), h'.Custody →
      (ids.foldl TransportHost.channelClosed h').Custody := by
    intro ids
    induction ids with
    | nil => intro h' c'; exact c'
    | cons id rest ih => intro h' c'; exact ih _ (c'.channelClosed id)
  exact drop h.links h c

/-! ### Sends -/

theorem Custody.reserveOutbound (c : h.Custody) (length : Nat) (buffered : Nat → Buffered) :
    ∃ h', h'.Custody ∧ Shrunk h h' ∧
      (h.reserveOutbound length buffered = (h', false) ∨
        (h'.outboundFits length = true ∧
          h.reserveOutbound length buffered =
            ({ h' with
              outboundSlices := h'.outboundSlices + 1
              outboundBytes := h'.outboundBytes + length }, true))) := by
  have hall := c.reconcileAll buffered
  by_cases hfit : h.outboundFits length
  · exact ⟨h, c, Shrunk.refl h, .inr ⟨hfit, by simp [TransportHost.reserveOutbound, hfit]⟩⟩
  · refine ⟨h.reconcileAll buffered, hall.1, hall.2, ?_⟩
    by_cases hnow : (h.reconcileAll buffered).outboundFits length
    · exact .inr ⟨hnow, by simp [TransportHost.reserveOutbound, hfit, hnow]⟩
    · exact .inl (by simp [TransportHost.reserveOutbound, hfit, hnow])

/-- A write that fits is charged to its link and to the node. -/
theorem Custody.admitWrite (c : h.Custody) (hid : id ∈ h.links) {length : Nat}
    (hslices : (h.owner id).queued.length < maxOutboundQueueSlices)
    (hbytes : (h.owner id).charged + length ≤ maxOutboundQueueBytes)
    (hfit : h.outboundFits length = true) :
    ({ h with
      outboundSlices := h.outboundSlices + 1
      outboundBytes := h.outboundBytes + length
      owner := Function.update h.owner id
        { h.owner id with
          charged := (h.owner id).charged + length
          queued := (h.owner id).queued ++ [length] }
      admitted := Function.update h.admitted id (h.admitted id ++ [length])
      sending := id :: h.sending } : TransportHost).Custody := by
  simp only [outboundFits, Bool.and_eq_true, decide_eq_true_eq] at hfit
  have hcharged := (c.owned id).charged
  refine c.write (o := { h.owner id with
      charged := (h.owner id).charged + length
      queued := (h.owner id).queued ++ [length] })
    hid ⟨?_, hbytes, ?_⟩ (c.opened id hid) rfl rfl rfl ?_ ?_ ?_ ?_ ?_ c.settled
  · simp only [List.sum_append, List.sum_singleton, Nat.cast_add]
    omega
  · simp only [List.length_append, List.length_singleton]
    omega
  · simp only
    omega
  · simp only [List.length_append, List.length_singleton, Nat.cast_add]
    omega
  · simp only
    omega
  · simp only
    omega
  · intro j
    by_cases hji : j = id
    · subst hji
      simp [c.once j]
    · simp [hji, c.once j]

theorem Custody.beginSend (c : h.Custody) (hid : id ∈ h.links) (length : Nat) (first : Buffered)
    (buffered : Nat → Buffered) : (h.beginSend id length first buffered).1.Custody := by
  unfold TransportHost.beginSend
  split
  · exact c
  · split
    · exact c
    · rename_i now _
      have c' := c.settle id (some now)
      have hid' : id ∈ (h.settle id (some now)).links := by
        rw [(c.settle_shrunk id (some now)).links]
        exact hid
      simp only
      split
      · exact c'
      · split
        · exact c'
        · rename_i hroom
          obtain ⟨h1, c1, hs, he | ⟨hfit, he⟩⟩ := c'.reserveOutbound length buffered
          · rw [he]
            exact c1
          · rw [he]
            have hslices := hs.queued id
            have hbytes := hs.charged id
            exact c1.admitWrite (hs.links ▸ hid') (by omega) (by omega) hfit

theorem Custody.send (c : h.Custody) (id length : Nat) (first : Buffered)
    (buffered : Nat → Buffered) : (h.send id length first buffered).1.Custody := by
  unfold TransportHost.send
  split
  · exact c
  · rename_i hid
    simp only [not_or, not_not] at hid
    have c' := c.beginSend hid.2 length first buffered
    split <;> rename_i he <;> rw [he] at c'
    · exact c'.channelClosed id
    · exact c'
    · exact c'

/-- Nothing that is held depends on which sends are still in their adapters. -/
theorem Custody.sending (c : h.Custody) (sending : List Nat) :
    ({ h with sending } : TransportHost).Custody := { c with }

theorem Custody.sent (c : h.Custody) (buffered : Buffered) : (h.sent buffered).1.Custody := by
  unfold TransportHost.sent
  split
  · exact c
  · exact (c.sending _).settle _ _

theorem Custody.sendThrew (c : h.Custody) : h.sendThrew.1.Custody := by
  unfold TransportHost.sendThrew
  split
  · exact c
  · rename_i id rest _
    have c' := c.sending rest
    by_cases hid : id ∈ h.links
    · simp only
      rw [releaseAll_channelClosed (h := { h with sending := rest }) hid]
      exact c'.channelClosed id
    · exact (c'.releaseAll_gone hid).channelClosed id

theorem Custody.register (c : h.Custody) : h.register.Custody := by
  unfold TransportHost.register
  split
  · exact c
  · have hnew : h.nextLinkId ∉ h.links := fun hm => by
      have := c.known _ hm
      omega
    have hq := c.gone _ hnew
    have htotal : ∀ f : LinkOutboundOwner → Int, f .new = 0 →
        ((h.links ++ [h.nextLinkId]).map
          fun j => f (Function.update h.owner h.nextLinkId .new j)).sum = h.total f := by
      intro f hf
      have hsame : h.links.map (fun j => f (Function.update h.owner h.nextLinkId .new j)) =
          h.links.map fun j => f (h.owner j) := by
        apply List.map_congr_left
        intro j hj
        have hji : j ≠ h.nextLinkId := fun e => hnew (e ▸ hj)
        simp [hji]
      simp [hsame, hf, total]
    exact {
      nodup := by
        rw [List.nodup_append]
        refine ⟨c.nodup, List.nodup_singleton _, ?_⟩
        intro a ha b hb
        rw [List.mem_singleton.1 hb]
        exact fun e => hnew (e ▸ ha)
      known := fun j hj => by
        rcases List.mem_append.1 hj with hj | hj
        · have := c.known j hj
          simp only
          omega
        · rw [List.mem_singleton.1 hj]
          simp
      opened := fun j hj => by
        by_cases hji : j = h.nextLinkId
        · subst hji
          simp [LinkOutboundOwner.new]
        · rcases List.mem_append.1 hj with hj | hj
          · simpa [hji] using c.opened j hj
          · exact absurd (List.mem_singleton.1 hj) hji
      gone := fun j hj => by
        have hji : j ≠ h.nextLinkId := fun e => hj (by simp [e])
        simpa [hji] using c.gone j fun hm => hj (by simp [hm])
      owned := fun j => by
        by_cases hji : j = h.nextLinkId
        · subst hji
          simpa using LinkOutboundOwner.owned_new
        · simpa [hji] using c.owned j
      bytes := c.bytes.trans (htotal (·.charged) rfl).symm
      slices := c.slices.trans (htotal (·.queued.length) rfl).symm
      nodeBytes := c.nodeBytes
      nodeSlices := c.nodeSlices
      once := fun j => by
        by_cases hji : j = h.nextLinkId
        · subst hji
          simpa [LinkOutboundOwner.new, hq] using c.once h.nextLinkId
        · simpa [hji] using c.once j
      settled := c.settled }

/-! ### Runs -/

theorem Custody.release (c : h.Custody) : h.release.Custody := by
  unfold TransportHost.release
  split
  · have c' : ({ h with bound := false } : TransportHost).Custody := { c with }
    exact c'.reset
  · exact c

theorem Custody.activate (c : h.Custody) : h.activate.Custody := { c.release with }

theorem Custody.close (c : h.Custody) : h.close.Custody := by
  unfold TransportHost.close
  split
  · exact c
  · have c' : ({ h with closed := true, bound := false } : TransportHost).Custody := { c with }
    exact c'.reset

theorem Custody.step (c : h.Custody) (e : Event) : (h.step e).Custody := by
  cases e with
  | register =>
    simp only [TransportHost.step]
    split
    · exact c.register
    · exact c
  | send id length first buffered => exact c.send id length first buffered
  | sent buffered => exact c.sent buffered
  | sendThrew => exact c.sendThrew
  | channelClosed id => exact c.channelClosed id
  | activate => exact c.activate
  | release => exact c.release
  | reset => exact c.reset
  | close => exact c.close

theorem Custody.run (c : h.Custody) (events : List Event) : (h.run events).Custody := by
  induction events generalizing h with
  | nil => exact c
  | cons e events ih => exact ih (c.step e)

/-- The writes of a link that were admitted and not released. -/
def held (h : TransportHost) (id : Nat) : List Nat :=
  (h.admitted id).drop (h.released id).length

theorem Custody.held_eq (c : h.Custody) (id : Nat) : h.held id = (h.owner id).queued := by
  simp [held, c.once id]

theorem total_nonneg (h : TransportHost) {f : LinkOutboundOwner → Int}
    (hf : ∀ id, 0 ≤ f (h.owner id)) : 0 ≤ h.total f := by
  apply List.sum_nonneg
  intro x hx
  obtain ⟨id, -, rfl⟩ := List.mem_map.1 hx
  exact hf id

/-- The reconciliation with which a send ends. -/
theorem Custody.sent_reconciled (c : h.Custody) {id n : Nat} {rest : List Nat} {b : Buffered}
    (hs : h.sending = id :: rest) (hb : b.report = some n) :
    (⟨id, n, h.owner id, (h.sent b).1.owner id⟩ : Settled).Reconciled := by
  obtain ⟨o, m, -, -, hr, he⟩ := settle_cases { h with sending := rest } id n (c.owned id)
  have ho : (h.sent b).1.owner id = o := by
    simp only [TransportHost.sent, hs, hb, he, Function.update_self]
  rw [ho]
  exact hr

/-- Over any run, the driver's counters are what its links hold: writes admitted, each released
at most once and, on a link that is gone, all released. -/
theorem run_accounts (maxRawLinks : Nat) (events : List Event) :
    let h := (new maxRawLinks).run events
    (h.outboundBytes = (h.links.map fun id => (((h.held id).sum : Nat) : Int)).sum ∧
      h.outboundSlices = (h.links.map fun id => ((h.held id).length : Int)).sum) ∧
    (0 ≤ h.outboundBytes ∧ h.outboundBytes ≤ maxNodeOutboundQueueBytes) ∧
    (0 ≤ h.outboundSlices ∧ h.outboundSlices ≤ maxNodeOutboundQueueSlices) ∧
    (∀ id, (h.owner id).Owned) ∧
    (∀ s ∈ h.settled, s.Reconciled) ∧
    (∀ id n rest b, h.sending = id :: rest → Buffered.report b = some n →
      (⟨id, n, h.owner id, (h.sent b).1.owner id⟩ : Settled).Reconciled) ∧
    (∀ id, h.admitted id = h.released id ++ (h.owner id).queued) ∧
    ∀ id, id ∉ h.links → (h.owner id).queued = [] ∧ (h.owner id).charged = 0 := by
  intro h
  have c : h.Custody := (new_custody maxRawLinks).run events
  refine ⟨⟨?_, ?_⟩, ⟨?_, c.nodeBytes⟩, ⟨?_, c.nodeSlices⟩, c.owned, c.settled, ?_, c.once, ?_⟩
  · rw [c.bytes, total]
    congr 1
    apply List.map_congr_left
    intro id _
    rw [c.held_eq, (c.owned id).charged]
  · rw [c.slices, total]
    congr 1
    apply List.map_congr_left
    intro id _
    rw [c.held_eq]
  · rw [c.bytes]
    exact total_nonneg h fun id => (c.owned id).nonneg
  · rw [c.slices]
    exact total_nonneg h fun id => Int.natCast_nonneg _
  · intro id n rest b hs hb
    exact c.sent_reconciled hs hb
  · intro id hid
    have hq := c.gone id hid
    refine ⟨hq, ?_⟩
    rw [(c.owned id).charged, hq]
    rfl

-- a write half drained, then a link whose adapter throws after writing part
example :
    let h := (new 4).run [.activate, .register, .register,
      .send 1 100 .missing fun _ => .missing, .sent (.answered 100),
      .send 1 50 (.answered 100) fun _ => .missing, .sent (.answered 60),
      .send 2 30 .missing fun _ => .missing, .sendThrew]
    (h.outboundBytes, h.outboundSlices, h.links, (h.owner 1).queued, h.released 2) =
      (150, 2, [1], [100, 50], [30]) := by decide

end TransportHost

end Outbound

end SeedTransport
