import SeedTransport.Services.Outbound

set_option autoImplicit false

namespace SeedTransport

/-! The datagram sockets the driver lends its occupant (`services/link.ts`): what they read
waits for the one `datagrams` event in the realm, and each occupant has a generation. -/

namespace Datagrams

open Outbound (maxLinkReadBytes)

def maxUdpSockets : Nat := 2048
def maxUdpHeldBytes : Nat := 8 * maxLinkReadBytes

abbrev Bytes := List UInt8

/-- One event to be: batches with their sockets, and their bytes. -/
structure Reads where
  args : List (Nat × Bytes)
  bytes : Nat
  deriving DecidableEq

/-- `binding` has the generation each bind in progress was asked in, `events` the generation
each `datagrams` call that was not answered was made in. The last three are for an
observer: the generation each socket was bound in, and what each generation's sockets were
heard saying and what its occupant was given. -/
structure TransportHost where
  datagrams : Bool
  bound : Bool
  closed : Bool
  sockets : List Nat
  binding : List Nat
  socketGen : Nat
  reads : List Reads
  heldDatagramBytes : Int
  readsBusy : Bool
  readsDue : Bool
  events : List (Nat × Reads)
  born : Nat → Option Nat
  accepted : Nat → List (Nat × Bytes)
  delivered : Nat → List (Nat × Bytes)

namespace TransportHost

def new (datagrams : Bool) : TransportHost where
  datagrams := datagrams
  bound := false
  closed := false
  sockets := []
  binding := []
  socketGen := 0
  reads := []
  heldDatagramBytes := 0
  readsBusy := false
  readsDue := false
  events := []
  born := fun _ => none
  accepted := fun _ => []
  delivered := fun _ => []

/-- `link/udpBind`, up to the platform's answer. -/
def bind (h : TransportHost) : TransportHost :=
  if h.bound = false ∨ h.datagrams = false ∨
      maxUdpSockets ≤ h.sockets.length + h.binding.length then h
  else { h with binding := h.socketGen :: h.binding }

/-- The platform has bound the `i`-th socket asked for as `id`, a number it gave to no socket
before. The answer is 0 for one whose occupant has gone, and where naming the machine's
addresses throws. -/
def bindDone (h : TransportHost) (i id : Nat) (threw : Bool) : TransportHost × Nat :=
  match h.binding[i]? with
  | none => (h, 0)
  | some gen =>
    if (h.born id).isSome then (h, 0)
    else
      let h := { h with
        binding := h.binding.eraseIdx i
        born := Function.update h.born id (some gen) }
      if gen ≠ h.socketGen then (h, 0)
      else ({ h with sockets := h.sockets ++ [id] }, if threw then 0 else id)

def bindFailed (h : TransportHost) (i : Nat) : TransportHost × Nat :=
  ({ h with binding := h.binding.eraseIdx i }, 0)

/-- The next event, once the last has been read, on a later turn. -/
def pumpReads (h : TransportHost) : TransportHost :=
  if h.readsBusy ∨ h.readsDue ∨ h.reads = [] then h else { h with readsDue := true }

/-- Put a batch behind the others: in the last event, or in one of its own. -/
def queue (id : Nat) (batch : Bytes) : List Reads → List Reads
  | [] => [⟨[(id, batch)], batch.length⟩]
  | [last] =>
    if maxLinkReadBytes < last.bytes + batch.length then [last, ⟨[(id, batch)], batch.length⟩]
    else [⟨last.args ++ [(id, batch)], last.bytes + batch.length⟩]
  | first :: rest => first :: queue id batch rest

/-- A socket's read. Past what the host holds it is dropped. -/
def heard (h : TransportHost) (id : Nat) (batch : Bytes) : TransportHost :=
  if id ∉ h.sockets ∨ (maxUdpHeldBytes : Int) - h.heldDatagramBytes < batch.length then h
  else
    { h with
      heldDatagramBytes := h.heldDatagramBytes + batch.length
      reads := queue id batch h.reads
      accepted := Function.update h.accepted h.socketGen
        (h.accepted h.socketGen ++ [(id, batch)]) }.pumpReads

/-- `done` of an event sent in generation `gen`. -/
def done (h : TransportHost) (gen : Nat) (next : Reads) : TransportHost :=
  if gen ≠ h.socketGen then h
  else
    { h with
      readsBusy := false
      heldDatagramBytes := h.heldDatagramBytes - next.bytes }.pumpReads

/-- The microtask of `pumpReads`; `promised` is whether the call answers with a promise. -/
def deliver (h : TransportHost) (promised : Bool) : TransportHost :=
  if h.readsDue = false then h
  else
    let h := { h with readsDue := false }
    match h.reads with
    | [] => h
    | next :: rest =>
      let h := { h with reads := rest }
      if h.readsBusy then h
      else if h.closed ∨ h.bound = false then h.done h.socketGen next
      else
        let h := { h with
          delivered := Function.update h.delivered h.socketGen
            (h.delivered h.socketGen ++ next.args) }
        if promised then
          { h with readsBusy := true, events := (h.socketGen, next) :: h.events }
        else h.done h.socketGen next

/-- An event is answered or rejected. -/
def settle (h : TransportHost) (i : Nat) : TransportHost :=
  match h.events[i]? with
  | none => h
  | some (gen, next) => { h with events := h.events.eraseIdx i }.done gen next

def udpClose (h : TransportHost) (id : Nat) : TransportHost :=
  { h with sockets := h.sockets.erase id }

/-- `reset`, as far as it concerns datagrams. -/
def reset (h : TransportHost) : TransportHost :=
  { h with
    socketGen := h.socketGen + 1
    sockets := []
    reads := []
    heldDatagramBytes := 0
    readsBusy := false }

def release (h : TransportHost) : TransportHost :=
  if h.bound then { h with bound := false }.reset else h

def activate (h : TransportHost) : TransportHost := { h.release with bound := true }

def close (h : TransportHost) : TransportHost :=
  if h.closed then h else { h with closed := true, bound := false }.reset

inductive Label where
  | bind
  | bindDone (i id : Nat) (threw : Bool)
  | bindFailed (i : Nat)
  | heard (id : Nat) (batch : Bytes)
  | deliver (promised : Bool)
  | settle (i : Nat)
  | udpClose (id : Nat)
  | activate
  | release
  | reset
  | close
  deriving DecidableEq

def step (h : TransportHost) : Label → TransportHost
  | .bind => h.bind
  | .bindDone i id threw => (h.bindDone i id threw).1
  | .bindFailed i => (h.bindFailed i).1
  | .heard id batch => h.heard id batch
  | .deliver promised => h.deliver promised
  | .settle i => h.settle i
  | .udpClose id => h.udpClose id
  -- the shell installs nothing once it has closed the driver
  | .activate => if h.closed then h else h.activate
  | .release => h.release
  | .reset => h.reset
  | .close => h.close

def run (h : TransportHost) (labels : List Label) : TransportHost := labels.foldl step h

/-! ### What the driver keeps -/

/-- The events of the current occupant that it has not answered. -/
def current (h : TransportHost) : List (Nat × Reads) :=
  h.events.filter fun e => e.1 = h.socketGen

def queued (h : TransportHost) : List (Nat × Bytes) := h.reads.flatMap (·.args)

/-- The batches the current occupant has in an event it has not answered. -/
def inFlight (h : TransportHost) : List (Nat × Bytes) := h.current.flatMap (·.2.args)

def weight (batches : List (Nat × Bytes)) : Nat := (batches.map fun b => b.2.length).sum

/-- What holds even before the next event is asked for. -/
structure Held (h : TransportHost) : Prop where
  closed : h.closed = true → h.bound = false
  unbound : h.bound = false → h.sockets = [] ∧ h.reads = [] ∧ h.current = [] ∧
    h.socketGen ∉ h.binding
  cap : h.sockets.length + h.binding.length ≤ maxUdpSockets
  nodup : h.sockets.Nodup
  born : ∀ id ∈ h.sockets, h.born id = some h.socketGen
  gens : ∀ gen ∈ h.binding, gen ≤ h.socketGen
  sized : ∀ r ∈ h.reads, r.bytes = weight r.args
  sizedEvents : ∀ e ∈ h.events, e.2.bytes = weight e.2.args
  held : h.heldDatagramBytes =
    (((h.reads.map (·.bytes)).sum + (h.current.map (·.2.bytes)).sum : Nat) : Int)
  limit : h.heldDatagramBytes ≤ maxUdpHeldBytes
  busy : h.current.length = if h.readsBusy then 1 else 0
  idle : h.readsDue = true → h.readsBusy = false
  whole : h.accepted h.socketGen = h.delivered h.socketGen ++ h.queued
  past : ∀ gen, h.delivered gen <+: h.accepted gen
  own : ∀ gen, ∀ b ∈ h.accepted gen, h.born b.1 = some gen
  future : ∀ gen, h.socketGen < gen →
    h.accepted gen = [] ∧ h.delivered gen = [] ∧ ∀ e ∈ h.events, e.1 ≠ gen

/-- `readsDue` is a microtask in the engine's queue, whichever occupant it was queued for. -/
structure Kept (h : TransportHost) : Prop extends Held h where
  due : h.reads ≠ [] → h.readsBusy = true ∨ h.readsDue = true

variable {h : TransportHost}

theorem Held.pumpReads (q : h.Held) : h.pumpReads.Kept := by
  unfold TransportHost.pumpReads
  split
  · rename_i hno
    exact { q with
      due := fun hne => by
        rcases hno with h1 | h1 | h1
        · exact .inl h1
        · exact .inr h1
        · exact absurd h1 hne }
  · rename_i hno
    simp only [not_or, Bool.not_eq_true] at hno
    exact { q with idle := fun _ => hno.1, due := fun _ => .inr rfl }

section Queue

theorem queue_args (id : Nat) (batch : Bytes) (l : List Reads) :
    (queue id batch l).flatMap (·.args) = l.flatMap (·.args) ++ [(id, batch)] := by
  induction l with
  | nil => rfl
  | cons r rest ih =>
    cases rest with
    | nil =>
      simp only [queue]
      split <;> simp
    | cons r' rest =>
      simp only [queue, List.flatMap_cons] at ih ⊢
      rw [ih]
      simp

theorem queue_bytes (id : Nat) (batch : Bytes) (l : List Reads) :
    ((queue id batch l).map (·.bytes)).sum = (l.map (·.bytes)).sum + batch.length := by
  induction l with
  | nil => simp [queue]
  | cons r rest ih =>
    cases rest with
    | nil =>
      simp only [queue]
      split <;> simp
    | cons r' rest =>
      simp only [queue, List.map_cons, List.sum_cons] at ih ⊢
      omega

theorem queue_sized (id : Nat) (batch : Bytes) (l : List Reads)
    (hl : ∀ r ∈ l, r.bytes = weight r.args) :
    ∀ r ∈ queue id batch l, r.bytes = weight r.args := by
  induction l with
  | nil =>
    intro r hr
    simp only [queue, List.mem_singleton] at hr
    subst hr
    simp [weight]
  | cons r rest ih =>
    cases rest with
    | nil =>
      have hr := hl r (by simp)
      simp only [queue]
      split
      · intro x hx
        rcases List.mem_cons.1 hx with rfl | hx
        · exact hr
        · simp only [List.mem_singleton] at hx
          subst hx
          simp [weight]
      · intro x hx
        simp only [List.mem_singleton] at hx
        subst hx
        simp [weight, hr]
    | cons r' rest =>
      intro x hx
      simp only [queue, List.mem_cons] at hx
      rcases hx with rfl | hx
      · exact hl x (by simp)
      · exact ih (fun y hy => hl y (by simp [hy])) x (by simpa [queue] using hx)

end Queue

theorem new_kept (datagrams : Bool) : (new datagrams).Kept := by
  constructor
  · constructor <;> simp [new, current, queued]
  · simp [new]

theorem Kept.bind (q : h.Kept) : h.bind.Kept := by
  unfold TransportHost.bind
  split
  · exact q
  · rename_i hno
    simp only [not_or, Bool.not_eq_false, not_le] at hno
    exact { q with
      unbound := fun hb => by
        rw [hno.1] at hb
        cases hb
      cap := by
        have := hno.2.2
        simp only [List.length_cons]
        omega
      gens := fun gen hg => by
        rcases List.mem_cons.1 hg with rfl | hg
        · exact le_rfl
        · exact q.gens gen hg }

theorem Kept.bindFailed (q : h.Kept) (i : Nat) : (h.bindFailed i).1.Kept := by
  have hsub : ∀ gen ∈ h.binding.eraseIdx i, gen ∈ h.binding :=
    fun gen hg => List.mem_of_mem_eraseIdx hg
  exact { q with
    unbound := fun hb => by
      obtain ⟨h1, h2, h3, h4⟩ := q.unbound hb
      exact ⟨h1, h2, h3, fun hg => h4 (hsub _ hg)⟩
    cap := by
      have := List.length_eraseIdx_le h.binding i
      have := q.cap
      simp only [TransportHost.bindFailed]
      omega
    gens := fun gen hg => q.gens gen (hsub gen hg) }

theorem Kept.bindDone (q : h.Kept) (i id : Nat) (threw : Bool) :
    (h.bindDone i id threw).1.Kept := by
  unfold TransportHost.bindDone
  split
  · exact q
  · rename_i gen hi
    split
    · exact q
    rename_i hfresh
    have hsub : ∀ g ∈ h.binding.eraseIdx i, g ∈ h.binding :=
      fun g hg => List.mem_of_mem_eraseIdx hg
    have hlen : (h.binding.eraseIdx i).length + 1 = h.binding.length := by
      have hlt := (List.getElem?_eq_some_iff.1 hi).1
      rw [List.length_eraseIdx_of_lt hlt]
      omega
    have hcap := q.cap
    have hborn : ∀ id' ∈ h.sockets,
        Function.update h.born id (some gen) id' = some h.socketGen := by
      intro id' hid
      have hne : id' ≠ id := fun e => hfresh (by rw [← e, q.born id' hid]; rfl)
      simpa [hne] using q.born id' hid
    have hown : ∀ g, ∀ b ∈ h.accepted g, Function.update h.born id (some gen) b.1 = some g := by
      intro g b hb
      have hne : b.1 ≠ id := fun e => hfresh (by rw [← e, q.own g b hb]; rfl)
      simpa [hne] using q.own g b hb
    simp only
    split
    · exact { q with
        unbound := fun hb => by
          obtain ⟨h1, h2, h3, h4⟩ := q.unbound hb
          exact ⟨h1, h2, h3, fun hg => h4 (hsub _ hg)⟩
        cap := by
          simp only
          omega
        born := hborn
        own := hown
        gens := fun g hg => q.gens g (hsub g hg) }
    · rename_i hgen
      have hgen : gen = h.socketGen := by simpa using hgen
      have hbound : h.bound = true := by
        cases hb : h.bound
        · exact absurd (hgen ▸ List.mem_of_getElem? hi) (q.unbound hb).2.2.2
        · rfl
      exact { q with
        unbound := fun hb => by
          rw [hbound] at hb
          cases hb
        cap := by
          simp only [List.length_append, List.length_singleton]
          omega
        nodup := by
          refine List.nodup_append.2 ⟨q.nodup, List.nodup_singleton id, fun a ha b hb e => ?_⟩
          rw [List.mem_singleton.1 hb] at e
          exact hfresh (by rw [← e, q.born a ha]; rfl)
        own := hown
        born := fun id' hid => by
          rcases List.mem_append.1 hid with hid | hid
          · exact hborn id' hid
          · rw [List.mem_singleton.1 hid]
            simp [hgen]
        gens := fun g hg => q.gens g (hsub g hg) }

theorem Kept.heard (q : h.Kept) (id : Nat) (batch : Bytes) : (h.heard id batch).Kept := by
  unfold TransportHost.heard
  split
  · exact q
  · rename_i hno
    simp only [not_or, not_not, not_lt] at hno
    apply Held.pumpReads
    exact { q with
      unbound := fun hb => by
        have := (q.unbound hb).1
        rw [this] at hno
        cases hno.1
      sized := queue_sized id batch h.reads q.sized
      held := by
        have := q.held
        simp only [current] at this ⊢
        rw [queue_bytes]
        push_cast at this ⊢
        omega
      limit := by
        have := hno.2
        simp only
        omega
      whole := by
        simp only [queued, Function.update_self, queue_args, ← List.append_assoc]
        rw [q.whole]
        rfl
      past := fun gen => by
        by_cases hg : gen = h.socketGen
        · subst hg
          simp only [Function.update_self]
          exact (q.past h.socketGen).trans (List.prefix_append _ _)
        · simpa [hg] using q.past gen
      own := fun gen b hb => by
        by_cases hg : gen = h.socketGen
        · subst hg
          simp only [Function.update_self] at hb
          rcases List.mem_append.1 hb with hb | hb
          · exact q.own _ b hb
          · rw [List.mem_singleton.1 hb]
            exact q.born id hno.1
        · exact q.own gen b (by simpa [hg] using hb)
      future := fun gen hg => by
        have hne : gen ≠ h.socketGen := by
          simp only at hg
          omega
        simpa [hne] using q.future gen hg }

theorem Kept.deliver (q : h.Kept) (promised : Bool) : (h.deliver promised).Kept := by
  unfold TransportHost.deliver
  split
  · exact q
  rename_i hdue
  simp only [Bool.not_eq_false] at hdue
  have hidle := q.idle hdue
  simp only
  split
  · rename_i hreads
    exact { q with
      idle := fun hb => by cases hb
      due := fun hne => absurd hreads hne }
  rename_i next rest hreads
  have hbound : ¬(h.closed = true ∨ h.bound = false) := by
    rintro (hc | hb)
    · exact absurd (q.unbound (q.closed hc)).2.1 (by simp [hreads])
    · exact absurd (q.unbound hb).2.1 (by simp [hreads])
  have hsized : ∀ r ∈ rest, r.bytes = weight r.args :=
    fun r hr => q.sized r (by simp [hreads, hr])
  have hheld := q.held
  rw [hreads, List.map_cons, List.sum_cons] at hheld
  have hlimit := q.limit
  have hwhole : h.accepted h.socketGen =
      h.delivered h.socketGen ++ next.args ++ rest.flatMap (·.args) := by
    have := q.whole
    simp only [queued, hreads, List.flatMap_cons] at this
    simpa using this
  have hpast : ∀ gen, Function.update h.delivered h.socketGen
      (h.delivered h.socketGen ++ next.args) gen <+: h.accepted gen := by
    intro gen
    by_cases hg : gen = h.socketGen
    · subst hg
      rw [Function.update_self, hwhole]
      exact List.prefix_append _ _
    · simpa [hg] using q.past gen
  have hcurrent : h.current = [] := List.length_eq_zero_iff.1 (by simpa [hidle] using q.busy)
  rw [if_neg (by simp [hidle]), if_neg hbound]
  simp only [not_or, Bool.not_eq_true, Bool.not_eq_false] at hbound
  split
  · exact { q with
      unbound := fun hb => by
        rw [hbound.2] at hb
        cases hb
      sized := hsized
      sizedEvents := fun e he => by
        rcases List.mem_cons.1 he with rfl | he
        · exact q.sized next (by simp [hreads])
        · exact q.sizedEvents e he
      held := by
        simp only [current] at hheld ⊢
        simp only [List.filter_cons_of_pos, decide_true, List.map_cons, List.sum_cons]
        omega
      busy := by
        simp only [current] at hcurrent ⊢
        simp [hcurrent]
      idle := fun hb => by cases hb
      whole := by
        simpa [queued] using hwhole
      past := hpast
      future := fun gen hg => by
        simp only at hg
        have hne : gen ≠ h.socketGen := by omega
        obtain ⟨h1, h2, h3⟩ := q.future gen hg
        refine ⟨h1, by simpa [hne] using h2, fun e he => ?_⟩
        rcases List.mem_cons.1 he with rfl | he
        · exact fun e => hne e.symm
        · exact h3 e he
      due := fun _ => .inl rfl }
  · simp only [done, ne_eq, not_true_eq_false, if_false]
    apply Held.pumpReads
    exact { q with
      unbound := fun hb => by
        rw [hbound.2] at hb
        cases hb
      sized := hsized
      held := by
        simp only [current] at hheld ⊢
        push_cast at hheld ⊢
        omega
      limit := by
        simp only
        omega
      busy := by
        simp only [current] at hcurrent ⊢
        simp [hcurrent]
      idle := fun _ => rfl
      whole := by
        simpa [queued] using hwhole
      past := hpast
      future := fun gen hg => by
        simp only at hg
        have hne : gen ≠ h.socketGen := by omega
        simpa [hne] using q.future gen hg }

/-- An answer of another occupant's event leaves nothing but the event behind. -/
theorem settle_other {i gen : Nat} {next : Reads} (hi : h.events[i]? = some (gen, next))
    (hgen : gen ≠ h.socketGen) : h.settle i = { h with events := h.events.eraseIdx i } := by
  simp [TransportHost.settle, hi, done, hgen]

theorem Kept.settle (q : h.Kept) (i : Nat) : (h.settle i).Kept := by
  cases hi : h.events[i]? with
  | none => simpa [TransportHost.settle, hi] using q
  | some e =>
    obtain ⟨gen, next⟩ := e
    obtain ⟨hlt, he⟩ := List.getElem?_eq_some_iff.1 hi
    have hperm : ((gen, next) :: h.events.eraseIdx i).Perm h.events := by
      have := List.getElem_cons_eraseIdx_perm hlt
      rwa [he] at this
    have hfilter := hperm.filter fun e => e.1 = h.socketGen
    have hlen := hfilter.length_eq
    have hsum := (hfilter.map fun e => e.2.bytes).sum_eq
    have hevents : ∀ e ∈ h.events.eraseIdx i, e.2.bytes = weight e.2.args :=
      fun e he => q.sizedEvents e (List.mem_of_mem_eraseIdx he)
    have hfuture : ∀ gen', h.socketGen < gen' → h.accepted gen' = [] ∧ h.delivered gen' = [] ∧
        ∀ e ∈ h.events.eraseIdx i, e.1 ≠ gen' := by
      intro gen' hg
      obtain ⟨h1, h2, h3⟩ := q.future gen' hg
      exact ⟨h1, h2, fun e he => h3 e (List.mem_of_mem_eraseIdx he)⟩
    have hheld := q.held
    have hbusy := q.busy
    simp only [current] at hheld hbusy
    by_cases hgen : gen = h.socketGen
    · subst hgen
      rw [List.filter_cons_of_pos (by simp)] at hlen hsum
      simp only [List.length_cons, List.map_cons, List.sum_cons] at hlen hsum
      have hbound : h.bound = true := by
        cases hb : h.bound
        · have h3 := congrArg List.length (q.unbound hb).2.2.1
          simp only [current, List.length_nil] at h3
          omega
        · rfl
      have hnone : ((h.events.eraseIdx i).filter fun e => e.1 = h.socketGen) = [] := by
        apply List.length_eq_zero_iff.1
        split at hbusy <;> omega
      simp only [TransportHost.settle, hi, done, ne_eq, not_true_eq_false, if_false]
      apply Held.pumpReads
      exact { q with
        unbound := fun hb => by
          rw [hbound] at hb
          cases hb
        held := by
          simp only [current, hnone] at hsum ⊢
          rw [hheld, ← hsum]
          push_cast
          simp
        limit := by
          have := q.limit
          simp only
          omega
        busy := by
          simp only [current, hnone]
          rfl
        idle := fun _ => rfl
        sizedEvents := hevents
        future := hfuture }
    · rw [settle_other hi hgen]
      rw [List.filter_cons_of_neg (by simpa using hgen)] at hlen hsum
      exact { q with
        unbound := fun hb => by
          obtain ⟨h1, h2, h3, h4⟩ := q.unbound hb
          refine ⟨h1, h2, ?_, h4⟩
          simp only [current] at h3 ⊢
          exact List.length_eq_zero_iff.1 (by rw [hlen, h3]; rfl)
        held := by
          simp only [current]
          rw [hsum]
          exact hheld
        busy := by
          simp only [current]
          rw [hlen]
          exact hbusy
        sizedEvents := hevents
        future := hfuture }

theorem Kept.udpClose (q : h.Kept) (id : Nat) : (h.udpClose id).Kept :=
  { q with
    unbound := fun hb => by
      obtain ⟨h1, h2, h3, h4⟩ := q.unbound hb
      exact ⟨by simp [TransportHost.udpClose, h1], h2, h3, h4⟩
    cap := by
      have := List.length_erase_le (a := id) (l := h.sockets)
      have := q.cap
      simp only [TransportHost.udpClose]
      omega
    nodup := q.nodup.erase id
    born := fun id' hid => q.born id' (List.mem_of_mem_erase hid) }

/-- A new generation begins with nothing, bound or not. -/
theorem Kept.renewed (q : h.Kept) (bound closed : Bool) (hc : closed = true → bound = false) :
    ({ h with bound := bound, closed := closed } : TransportHost).reset.Kept := by
  obtain ⟨hacc, hdel, hevents⟩ := q.future (h.socketGen + 1) (by omega)
  have hnone : (h.events.filter fun e => e.1 = h.socketGen + 1) = [] := by
    apply List.filter_eq_nil_iff.2
    intro e he
    simpa using hevents e he
  have hbinding : h.socketGen + 1 ∉ h.binding := fun hg => by
    have := q.gens _ hg
    omega
  have hcurrent : ({ h with bound := bound, closed := closed } : TransportHost).reset.current = [] :=
    hnone
  exact {
    closed := hc
    unbound := fun _ => ⟨rfl, rfl, hcurrent, hbinding⟩
    cap := by
      have := q.cap
      simp only [TransportHost.reset, List.length_nil]
      omega
    nodup := List.nodup_nil
    born := fun id hid => by cases hid
    gens := fun gen hg => by
      have := q.gens gen hg
      simp only [TransportHost.reset]
      omega
    sized := fun r hr => by cases hr
    sizedEvents := q.sizedEvents
    own := q.own
    held := by
      rw [hcurrent]
      rfl
    limit := Int.natCast_nonneg _
    busy := by
      rw [hcurrent]
      rfl
    idle := fun _ => rfl
    whole := by
      simp only [TransportHost.reset, queued]
      rw [hacc, hdel]
      rfl
    past := q.past
    future := fun gen hg => q.future gen (by
      simp only [TransportHost.reset] at hg
      omega)
    due := fun hne => absurd rfl hne }

theorem Kept.reset (q : h.Kept) : h.reset.Kept := q.renewed h.bound h.closed q.closed

theorem Kept.release (q : h.Kept) : h.release.Kept := by
  unfold TransportHost.release
  split
  · exact q.renewed false h.closed fun _ => rfl
  · exact q

theorem Kept.close (q : h.Kept) : h.close.Kept := by
  unfold TransportHost.close
  split
  · exact q
  · exact q.renewed false true fun _ => rfl

theorem release_closed (h : TransportHost) : h.release.closed = h.closed := by
  unfold TransportHost.release
  split <;> rfl

theorem Kept.activate (q : h.Kept) (hc : h.closed = false) : h.activate.Kept :=
  { q.release with
    closed := fun h1 => by
      simp only [TransportHost.activate, release_closed, hc] at h1
      cases h1
    unbound := fun hb => by cases hb }

theorem Kept.step (q : h.Kept) (l : Label) : (h.step l).Kept := by
  cases l with
  | bind => exact q.bind
  | bindDone i id threw => exact q.bindDone i id threw
  | bindFailed i => exact q.bindFailed i
  | heard id batch => exact q.heard id batch
  | deliver promised => exact q.deliver promised
  | settle i => exact q.settle i
  | udpClose id => exact q.udpClose id
  | activate =>
    simp only [TransportHost.step]
    split
    · exact q
    · rename_i hc
      exact q.activate (by simpa using hc)
  | release => exact q.release
  | reset => exact q.reset
  | close => exact q.close

theorem Kept.run (labels : List Label) : ∀ {h : TransportHost}, h.Kept → (h.run labels).Kept := by
  induction labels with
  | nil => exact fun q => q
  | cons l labels ih => exact fun q => ih (q.step l)

/-! ### Custody of datagrams -/

/-- The driver's side of the current occupant. -/
structure Occupant where
  gen : Nat
  bound : Bool
  closed : Bool
  sockets : List Nat
  reads : List Reads
  heldDatagramBytes : Int
  readsBusy : Bool
  readsDue : Bool
  inFlight : List (Nat × Reads)
  accepted : List (Nat × Bytes)
  delivered : List (Nat × Bytes)

def occupant (h : TransportHost) : Occupant where
  gen := h.socketGen
  bound := h.bound
  closed := h.closed
  sockets := h.sockets
  reads := h.reads
  heldDatagramBytes := h.heldDatagramBytes
  readsBusy := h.readsBusy
  readsDue := h.readsDue
  inFlight := h.current
  accepted := h.accepted h.socketGen
  delivered := h.delivered h.socketGen

/-- What is charged is queued or in flight, and what was accepted was delivered or is queued, in
the order it came. -/
structure Custody (h : TransportHost) : Prop where
  charged : h.heldDatagramBytes = (weight (h.queued ++ h.inFlight) : Nat)
  limit : 0 ≤ h.heldDatagramBytes ∧ h.heldDatagramBytes ≤ maxUdpHeldBytes
  sockets : h.sockets.length + h.binding.length ≤ maxUdpSockets
  single : h.current.length ≤ 1
  whole : h.accepted h.socketGen = h.delivered h.socketGen ++ h.queued
  past : ∀ gen, h.delivered gen <+: h.accepted gen
  own : ∀ gen, ∀ b ∈ h.accepted gen, h.born b.1 = some gen
  scheduled : h.reads ≠ [] → h.current = [] → h.readsDue = true

/-- A batch leaves the queue by being delivered, and the next delivery is scheduled once the
one before is answered. -/
structure Served (h : TransportHost) : Prop where
  onward : ∀ l gen, h.accepted gen <+: (h.step l).accepted gen ∧
    h.delivered gen <+: (h.step l).delivered gen
  next : ∀ promised r rest, h.readsDue = true → h.reads = r :: rest →
    (h.deliver promised).delivered h.socketGen = h.delivered h.socketGen ++ r.args ∧
      (h.deliver promised).reads = rest
  answered : ∀ i r, h.events[i]? = some (h.socketGen, r) → h.reads ≠ [] →
    (h.settle i).readsDue = true

/-- What was begun for another occupant changes nothing for this one. -/
structure Unmixed (h : TransportHost) : Prop where
  others : ∀ l gen, gen ≠ h.socketGen →
    (h.step l).accepted gen = h.accepted gen ∧ (h.step l).delivered gen = h.delivered gen
  bindDone : ∀ i gen id threw, h.binding[i]? = some gen → gen ≠ h.socketGen →
    (h.bindDone i id threw).1.occupant = h.occupant ∧ (h.bindDone i id threw).2 = 0
  bindFailed : ∀ i, (h.bindFailed i).1.occupant = h.occupant ∧ (h.bindFailed i).2 = 0
  heard : ∀ id gen batch, h.born id = some gen → gen ≠ h.socketGen → h.heard id batch = h
  settle : ∀ i gen r, h.events[i]? = some (gen, r) → gen ≠ h.socketGen →
    (h.settle i).occupant = h.occupant
  stale : ∀ promised, h.reads = [] → h.deliver promised = { h with readsDue := false }

section Records

@[simp] theorem pumpReads_accepted (h : TransportHost) : h.pumpReads.accepted = h.accepted := by
  unfold pumpReads
  split <;> rfl

@[simp] theorem pumpReads_delivered (h : TransportHost) : h.pumpReads.delivered = h.delivered := by
  unfold pumpReads
  split <;> rfl

@[simp] theorem pumpReads_reads (h : TransportHost) : h.pumpReads.reads = h.reads := by
  unfold pumpReads
  split <;> rfl

@[simp] theorem done_accepted (h : TransportHost) (gen : Nat) (next : Reads) :
    (h.done gen next).accepted = h.accepted := by
  unfold done
  split <;> simp

@[simp] theorem done_delivered (h : TransportHost) (gen : Nat) (next : Reads) :
    (h.done gen next).delivered = h.delivered := by
  unfold done
  split <;> simp

@[simp] theorem done_reads (h : TransportHost) (gen : Nat) (next : Reads) :
    (h.done gen next).reads = h.reads := by
  unfold done
  split <;> simp

/-- A record with more in one generation. -/
def Grown (gen : Nat) (before after : Nat → List (Nat × Bytes)) : Prop :=
  ∃ more, after = Function.update before gen (before gen ++ more)

variable {gen : Nat} {before after : Nat → List (Nat × Bytes)}

theorem Grown.refl (gen : Nat) (before : Nat → List (Nat × Bytes)) : Grown gen before before :=
  ⟨[], by simp⟩

theorem Grown.onward (g : Grown gen before after) (gen' : Nat) :
    before gen' <+: after gen' := by
  obtain ⟨more, rfl⟩ := g
  by_cases he : gen' = gen
  · subst he
    simp
  · simp [he]

theorem Grown.other (g : Grown gen before after) {gen' : Nat} (hne : gen' ≠ gen) :
    after gen' = before gen' := by
  obtain ⟨more, rfl⟩ := g
  simp [hne]

theorem release_records (h : TransportHost) :
    h.release.accepted = h.accepted ∧ h.release.delivered = h.delivered := by
  unfold TransportHost.release
  split <;> exact ⟨rfl, rfl⟩

theorem step_records (h : TransportHost) (l : Label) :
    Grown h.socketGen h.accepted (h.step l).accepted ∧
      Grown h.socketGen h.delivered (h.step l).delivered := by
  have hsame : ∀ h' : TransportHost, h'.accepted = h.accepted → h'.delivered = h.delivered →
      Grown h.socketGen h.accepted h'.accepted ∧ Grown h.socketGen h.delivered h'.delivered := by
    intro h' ha hd
    rw [ha, hd]
    exact ⟨Grown.refl _ _, Grown.refl _ _⟩
  cases l with
  | bind =>
    apply hsame <;> simp only [step, TransportHost.bind] <;> split <;> rfl
  | bindDone i id threw =>
    apply hsame <;> simp only [step, TransportHost.bindDone] <;> (repeat' split) <;> rfl
  | bindFailed i => exact hsame _ rfl rfl
  | heard id batch =>
    simp only [step, TransportHost.heard]
    split
    · exact hsame h rfl rfl
    · simp only [pumpReads_accepted, pumpReads_delivered]
      exact ⟨⟨_, rfl⟩, Grown.refl _ _⟩
  | deliver promised =>
    simp only [step, TransportHost.deliver]
    split
    · exact hsame h rfl rfl
    split
    · exact hsame _ rfl rfl
    split
    · exact hsame _ rfl rfl
    split
    · apply hsame <;> simp
    split
    · exact ⟨Grown.refl _ _, _, rfl⟩
    · simp only [done_accepted, done_delivered]
      exact ⟨Grown.refl _ _, _, rfl⟩
  | settle i =>
    simp only [step, TransportHost.settle]
    split
    · exact hsame h rfl rfl
    · apply hsame <;> simp
  | udpClose id => exact hsame _ rfl rfl
  | activate =>
    simp only [step]
    split
    · exact hsame h rfl rfl
    · exact hsame _ (release_records h).1 (release_records h).2
  | release => exact hsame _ (release_records h).1 (release_records h).2
  | reset => exact hsame _ rfl rfl
  | close =>
    apply hsame <;> simp only [step, TransportHost.close] <;> split <;> rfl

end Records

theorem weight_flatMap {α : Type} (f : α → List (Nat × Bytes)) (n : α → Nat) (l : List α)
    (hl : ∀ a ∈ l, n a = weight (f a)) : weight (l.flatMap f) = (l.map n).sum := by
  induction l with
  | nil => rfl
  | cons a l ih =>
    have ha := hl a (by simp)
    have ih := ih fun b hb => hl b (by simp [hb])
    simp only [weight, List.flatMap_cons, List.map_append, List.sum_append, List.map_cons,
      List.sum_cons] at ha ih ⊢
    omega

theorem filter_eraseIdx {α : Type} (p : α → Bool) {e : α} (hp : p e = false) (l : List α) :
    ∀ i, l[i]? = some e → (l.eraseIdx i).filter p = l.filter p := by
  induction l with
  | nil => exact fun i hi => by simp
  | cons a l ih =>
    intro i hi
    cases i with
    | zero =>
      obtain rfl : a = e := by simpa using hi
      simp [hp]
    | succ i =>
      have := ih i (by simpa using hi)
      simp [List.filter_cons, this]

theorem Kept.custody (q : h.Kept) : h.Custody where
  charged := by
    have hq : weight h.queued = (h.reads.map (·.bytes)).sum := weight_flatMap _ _ _ q.sized
    have hf : weight h.inFlight = (h.current.map (·.2.bytes)).sum :=
      weight_flatMap _ _ _ fun e he => q.sizedEvents e (List.mem_of_mem_filter he)
    have hsplit : weight (h.queued ++ h.inFlight) = weight h.queued + weight h.inFlight := by
      simp [weight]
    rw [q.held, hsplit, hq, hf]
  limit := ⟨by rw [q.held]; exact Int.natCast_nonneg _, q.limit⟩
  sockets := q.cap
  single := by
    have := q.busy
    split at this <;> omega
  whole := q.whole
  past := q.past
  own := q.own
  scheduled := fun hne hnone => by
    have hbusy := q.busy
    rw [hnone] at hbusy
    rcases q.due hne with hb | hd
    · simp [hb] at hbusy
    · exact hd

theorem Kept.served (q : h.Kept) : h.Served where
  onward := fun l gen => ⟨(step_records h l).1.onward gen, (step_records h l).2.onward gen⟩
  next := by
    intro promised r rest hdue hreads
    have hidle := q.idle hdue
    have hlive : ¬(h.closed = true ∨ h.bound = false) := by
      rintro (hc | hb)
      · exact absurd (q.unbound (q.closed hc)).2.1 (by simp [hreads])
      · exact absurd (q.unbound hb).2.1 (by simp [hreads])
    cases promised <;> simp [TransportHost.deliver, hdue, hreads, hidle, hlive]
  answered := by
    intro i r hi hne
    have hpump : ∀ h' : TransportHost, h'.readsBusy = false → h'.reads ≠ [] →
        h'.pumpReads.readsDue = true := by
      intro h' hb hr
      unfold pumpReads
      split
      · rename_i hno
        simpa [hb, hr] using hno
      · rfl
    simp only [TransportHost.settle, hi, done, ne_eq, not_true_eq_false, if_false]
    exact hpump _ rfl hne

theorem Kept.unmixed (q : h.Kept) : h.Unmixed where
  others := fun l gen hne => ⟨(step_records h l).1.other hne, (step_records h l).2.other hne⟩
  bindDone := by
    intro i gen id threw hi hne
    simp only [TransportHost.bindDone, hi]
    split
    · exact ⟨rfl, rfl⟩
    · exact ⟨rfl, rfl⟩
  bindFailed := fun i => ⟨rfl, rfl⟩
  heard := by
    intro id gen batch hborn hne
    have hno : id ∉ h.sockets := fun hid => by
      have := q.born id hid
      rw [hborn] at this
      exact hne (Option.some.inj this)
    simp [TransportHost.heard, hno]
  settle := by
    intro i gen r hi hne
    rw [settle_other hi hne]
    have hcurrent := filter_eraseIdx (fun e => e.1 = h.socketGen) (e := (gen, r)) (by simpa using hne)
      h.events i hi
    simp [occupant, current, hcurrent]
  stale := by
    intro promised hreads
    simp only [TransportHost.deliver]
    split
    · rename_i hdue
      rw [← hdue]
    · simp [hreads]

/-- Datagrams in the driver's custody, whatever the platform, the occupants and the shell do. -/
theorem run_datagrams (datagrams : Bool) (labels : List Label) :
    ((new datagrams).run labels).Custody ∧ ((new datagrams).run labels).Served ∧
      ((new datagrams).run labels).Unmixed :=
  have q := (new_kept datagrams).run labels
  ⟨q.custody, q.served, q.unmixed⟩

end TransportHost

end Datagrams

end SeedTransport
