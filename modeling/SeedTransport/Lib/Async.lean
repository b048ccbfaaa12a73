import Mathlib

set_option autoImplicit false

/-! Asynchronous functions over a shared state, and what holds of them under every
interleaving. A function runs until it waits for an answer from outside; while it waits
anyone else may change the state, as far as a rely relation allows. A machine runs such
functions one after another off a work chain. -/

namespace Async

/-- How far a function got: it returned, it threw, or it waits for the answer to `c` with
the rest of its work in `k`. The answer `none` is a failed call. -/
inductive Out (S C A α : Type) : Type where
  | ret (a : α) (s : S) : Out S C A α
  | err (s : S) : Out S C A α
  | wait (c : C) (s : S) (k : Option A → S → Out S C A α) : Out S C A α

def Prog (S C A α : Type) : Type := S → Out S C A α

variable {S C A α β : Type}

def Out.bind (f : α → Prog S C A β) : Out S C A α → Out S C A β
  | .ret a s => f a s
  | .err s => .err s
  | .wait c s k => .wait c s fun a s' => (k a s').bind f

def Out.orElse (h : Prog S C A α) : Out S C A α → Out S C A α
  | .ret a s => .ret a s
  | .err s => h s
  | .wait c s k => .wait c s fun a s' => (k a s').orElse h

def Out.after (f : S → S) : Out S C A α → Out S C A α
  | .ret a s => .ret a (f s)
  | .err s => .err (f s)
  | .wait c s k => .wait c s fun a s' => (k a s').after f

namespace Prog

instance : Monad (Prog S C A) where
  pure a := fun s => .ret a s
  bind x f := fun s => (x s).bind f

def get : Prog S C A S := fun s => .ret s s

def modify (f : S → S) : Prog S C A Unit := fun s => .ret () (f s)

def fail : Prog S C A α := fun s => .err s

/-- Wait for the answer to `c`; a failed call throws. -/
def call (c : C) : Prog S C A A := fun s =>
  .wait c s fun a s' =>
    match a with
    | some b => .ret b s'
    | none => .err s'

/-- Wait for a turn of the event loop: what `await` costs when nothing is asked. -/
def turn (c : C) : Prog S C A Unit := fun s => .wait c s fun _ s' => .ret () s'

/-- `try { x } catch { h }` -/
def attempt (x h : Prog S C A α) : Prog S C A α := fun s => (x s).orElse h

/-- `try { x } finally { f }` -/
def ensuring (x : Prog S C A α) (f : S → S) : Prog S C A α := fun s => (x s).after f

/-- A value that is `null` throws where it is used. -/
def need : Option α → Prog S C A α
  | some a => pure a
  | none => fail

end Prog

/-- How the world notes that a call was made and that it was answered. -/
structure Notes (S C A : Type) where
  ask : C → S → S
  answer : C → Option A → S → S

/-- What others may do to the state while a function waits, and what must hold whenever it
waits for the answer to a call. -/
structure Terms (S C A : Type) extends Notes S C A where
  rely : S → S → Prop
  yields : C → S → Prop

def Out.Sat (T : Terms S C A) (Q : α → S → Prop) (E : S → Prop) : Out S C A α → Prop
  | .ret a s => Q a s
  | .err s => E s
  | .wait c s k => T.yields c (T.ask c s) ∧
      ∀ a s', T.rely (T.ask c s) s' → (k a (T.answer c a s')).Sat T Q E

/-- From `s`, under every interleaving `T` allows, `x` waits only where `T` lets it, returns
only with `Q` and throws only with `E`. -/
def Prog.wp (T : Terms S C A) (x : Prog S C A α) (Q : α → S → Prop) (E : S → Prop) (s : S) :
    Prop :=
  (x s).Sat T Q E

namespace Out

variable {T : Terms S C A} {Q Q' : α → S → Prop} {E E' : S → Prop}

theorem Sat.mono {o : Out S C A α} (h : o.Sat T Q E) (hQ : ∀ a s, Q a s → Q' a s)
    (hE : ∀ s, E s → E' s) : o.Sat T Q' E' := by
  induction o with
  | ret a s => exact hQ a s h
  | err s => exact hE s h
  | wait c s k ih => exact ⟨h.1, fun a s' hr => ih a _ (h.2 a s' hr)⟩

theorem sat_bind (f : α → Prog S C A β) (R : β → S → Prop) (o : Out S C A α) :
    (o.bind f).Sat T R E ↔ o.Sat T (fun a s => (f a s).Sat T R E) E := by
  induction o with
  | ret a s => rfl
  | err s => rfl
  | wait c s k ih =>
    simp only [Out.bind, Out.Sat]
    exact and_congr Iff.rfl (forall_congr' fun a => forall_congr' fun s' =>
      forall_congr' fun _ => ih a _)

theorem sat_orElse (h : Prog S C A α) (o : Out S C A α) :
    (o.orElse h).Sat T Q E ↔ o.Sat T Q fun s => (h s).Sat T Q E := by
  induction o with
  | ret a s => rfl
  | err s => rfl
  | wait c s k ih =>
    simp only [Out.orElse, Out.Sat]
    exact and_congr Iff.rfl (forall_congr' fun a => forall_congr' fun s' =>
      forall_congr' fun _ => ih a _)

theorem sat_after (f : S → S) (o : Out S C A α) :
    (o.after f).Sat T Q E ↔ o.Sat T (fun a s => Q a (f s)) fun s => E (f s) := by
  induction o with
  | ret a s => rfl
  | err s => rfl
  | wait c s k ih =>
    simp only [Out.after, Out.Sat]
    exact and_congr Iff.rfl (forall_congr' fun a => forall_congr' fun s' =>
      forall_congr' fun _ => ih a _)

end Out

namespace Prog

variable {T : Terms S C A} {Q Q' : α → S → Prop} {E E' : S → Prop} {s : S}

theorem wp_mono {x : Prog S C A α} (h : x.wp T Q E s) (hQ : ∀ a s, Q a s → Q' a s)
    (hE : ∀ s, E s → E' s) : x.wp T Q' E' s :=
  Out.Sat.mono h hQ hE

@[simp] theorem wp_pure (a : α) : (pure a : Prog S C A α).wp T Q E s ↔ Q a s := Iff.rfl

@[simp] theorem wp_bind (x : Prog S C A α) (f : α → Prog S C A β) (R : β → S → Prop) :
    (x >>= f).wp T R E s ↔ x.wp T (fun a => (f a).wp T R E) E s :=
  Out.sat_bind f R (x s)

@[simp] theorem wp_get {Q : S → S → Prop} : (get : Prog S C A S).wp T Q E s ↔ Q s s := Iff.rfl

@[simp] theorem wp_modify {Q : Unit → S → Prop} (f : S → S) :
    (modify f : Prog S C A Unit).wp T Q E s ↔ Q () (f s) := Iff.rfl

@[simp] theorem wp_fail : (fail : Prog S C A α).wp T Q E s ↔ E s := Iff.rfl

@[simp] theorem wp_call {Q : A → S → Prop} (c : C) : (call c : Prog S C A A).wp T Q E s ↔
    T.yields c (T.ask c s) ∧ ∀ s', T.rely (T.ask c s) s' →
      (∀ b, Q b (T.answer c (some b) s')) ∧ E (T.answer c none s') := by
  refine and_congr Iff.rfl ⟨fun h s' hr => ⟨fun b => h (some b) s' hr, h none s' hr⟩, ?_⟩
  intro h a s' hr
  cases a with
  | some b => exact (h s' hr).1 b
  | none => exact (h s' hr).2

@[simp] theorem wp_turn {Q : Unit → S → Prop} (c : C) : (turn c : Prog S C A Unit).wp T Q E s ↔
    T.yields c (T.ask c s) ∧ ∀ a s', T.rely (T.ask c s) s' → Q () (T.answer c a s') := Iff.rfl

@[simp] theorem wp_attempt (x h : Prog S C A α) :
    (attempt x h).wp T Q E s ↔ x.wp T Q (fun s => h.wp T Q E s) s :=
  Out.sat_orElse h (x s)

@[simp] theorem wp_ensuring (x : Prog S C A α) (f : S → S) :
    (ensuring x f).wp T Q E s ↔ x.wp T (fun a s => Q a (f s)) (fun s => E (f s)) s :=
  Out.sat_after f (x s)

@[simp] theorem wp_need (o : Option α) :
    (need o : Prog S C A α).wp T Q E s ↔ (∀ a, o = some a → Q a s) ∧ (o = none → E s) := by
  cases o <;> simp [need]

theorem wp_ite (p : Prop) [Decidable p] (x y : Prog S C A α) :
    (if p then x else y).wp T Q E s ↔ (p → x.wp T Q E s) ∧ (¬p → y.wp T Q E s) := by
  split <;> simp_all

end Prog

/-- Two proofs about one function are one: the second may count on what the first shows of every
wait. -/
theorem Out.Sat.both {N : Notes S C A} {R R' : S → S → Prop} {Y Y' : C → S → Prop} {G : S → Prop}
    {Q Q' : α → S → Prop} {E E' : S → Prop} {o : Out S C A α} (hG : ∀ c s, Y c s → G s)
    (hR : ∀ s t, R' s t → R s t) (h : o.Sat { N with rely := R, yields := Y } Q E)
    (h' : o.Sat { N with rely := fun s t => R' s t ∧ G s, yields := Y' } Q' E') :
    o.Sat { N with rely := R', yields := fun c s => Y c s ∧ Y' c s } (fun a s => Q a s ∧ Q' a s)
      fun s => E s ∧ E' s := by
  induction o with
  | ret a s => exact ⟨h, h'⟩
  | err s => exact ⟨h, h'⟩
  | wait c s k ih =>
    refine ⟨⟨h.1, h'.1⟩, fun a s' hr => ?_⟩
    exact ih a _ (h.2 a s' (hR _ _ hr)) (h'.2 a s' ⟨hr, hG c _ h.1⟩)

/-- A work chain over a shared state: `next` takes the next job off the chain, `body` is what
the job does, and `input` is what anyone may do meanwhile. -/
structure System (S C A I J : Type) extends Notes S C A where
  input : I → S → S
  next : S → Option (J × S)
  body : J → Prog S C A Unit

/-- A chain at rest, or with a job waiting for the answer to a call. -/
structure Machine (S C A : Type) where
  world : S
  waiting : Option (C × (Option A → S → Out S C A Unit))

/-- What happens to a chain: an outside action, the next job's start, or the answer to the
call its job waits on. -/
inductive Event (I A : Type) where
  | input (i : I)
  | start
  | resume (a : Option A)

namespace System

variable {I J : Type}

def settle (sys : System S C A I J) : Out S C A Unit → Machine S C A
  | .ret _ s => ⟨s, none⟩
  | .err s => ⟨s, none⟩
  | .wait c s k => ⟨sys.ask c s, some (c, k)⟩

def step (sys : System S C A I J) (m : Machine S C A) : Event I A → Machine S C A
  | .input i => { m with world := sys.input i m.world }
  | .start =>
    match m.waiting with
    | some _ => m
    | none =>
      match sys.next m.world with
      | none => m
      | some (j, s) => sys.settle (sys.body j s)
  | .resume a =>
    match m.waiting with
    | none => m
    | some (c, k) => sys.settle (k a (sys.answer c a m.world))

def run (sys : System S C A I J) (m : Machine S C A) (evs : List (Event I A)) : Machine S C A :=
  evs.foldl sys.step m

/-- Every action from outside is one that `ok` allows where it happens, given the call a job
waits on. -/
def Admitted (sys : System S C A I J) (ok : Option C → I → S → Prop) :
    Machine S C A → List (Event I A) → Prop
  | _, [] => True
  | m, .input i :: evs =>
    ok (m.waiting.map Prod.fst) i m.world ∧ Admitted sys ok (sys.step m (.input i)) evs
  | m, e :: evs => Admitted sys ok (sys.step m e) evs

theorem admitted_of_all (sys : System S C A I J) {ok : Option C → I → S → Prop}
    (h : ∀ w i s, ok w i s) (m : Machine S C A) (evs : List (Event I A)) :
    Admitted sys ok m evs := by
  induction evs generalizing m with
  | nil => trivial
  | cons e evs ih =>
    cases e with
    | input i => exact ⟨h _ _ _, ih _⟩
    | start => exact ih _
    | resume a => exact ih _

/-- A proof about every interleaving that `ok` allows: `idle` holds between jobs, every job
keeps it, and nothing from outside breaks it or what a waiting job needs. -/
structure Outline (sys : System S C A I J) (ok : Option C → I → S → Prop) where
  rely : S → S → Prop
  yields : C → S → Prop
  idle : S → Prop
  rely_refl : ∀ s, rely s s
  rely_trans : ∀ {s t u}, rely s t → rely t u → rely s u
  input_rely : ∀ c i s, ok (some c) i s → yields c s → rely s (sys.input i s)
  input_idle : ∀ i s, ok none i s → idle s → idle (sys.input i s)
  yields_stable : ∀ {c s t}, rely s t → yields c s → yields c t
  body_ok : ∀ {s t j}, idle s → sys.next s = some (j, t) →
    (sys.body j).wp { sys.toNotes with rely, yields } (fun _ => idle) idle t

namespace Outline

variable {sys : System S C A I J} {ok : Option C → I → S → Prop}

def terms (o : Outline sys ok) : Terms S C A :=
  { sys.toNotes with rely := o.rely, yields := o.yields }

/-- What an outline says of a machine: between jobs `idle`, and while a job waits, `yields`
and that the rest of the job keeps to the outline. -/
def Holds (o : Outline sys ok) (m : Machine S C A) : Prop :=
  match m.waiting with
  | none => o.idle m.world
  | some (c, k) => o.yields c m.world ∧ ∀ a s', o.rely m.world s' →
      (k a (sys.answer c a s')).Sat o.terms (fun _ => o.idle) o.idle

/-- What holds whenever a job waits and whenever none runs holds of the world. -/
theorem Holds.world {o : Outline sys ok} {m : Machine S C A} (h : o.Holds m) {P : S → Prop}
    (hy : ∀ c s, o.yields c s → P s) (hi : ∀ s, o.idle s → P s) : P m.world := by
  obtain ⟨s, w⟩ := m
  cases w with
  | none => exact hi s h
  | some ck => exact hy _ s h.1

theorem holds_settle (o : Outline sys ok) {out : Out S C A Unit}
    (h : out.Sat o.terms (fun _ => o.idle) o.idle) : o.Holds (sys.settle out) := by
  cases out with
  | ret a s => exact h
  | err s => exact h
  | wait c s k => exact h

theorem Holds.input {o : Outline sys ok} {m : Machine S C A} (h : o.Holds m) (i : I)
    (hok : ok (m.waiting.map Prod.fst) i m.world) :
    o.Holds { m with world := sys.input i m.world } := by
  obtain ⟨s, w⟩ := m
  cases w with
  | none => exact o.input_idle i s hok h
  | some ck =>
    obtain ⟨hy, hk⟩ := h
    have hr := o.input_rely ck.1 i s hok hy
    exact ⟨o.yields_stable hr hy, fun a s' hr' => hk a s' (o.rely_trans hr hr')⟩

theorem Holds.start {o : Outline sys ok} {m : Machine S C A} (h : o.Holds m) :
    o.Holds (sys.step m .start) := by
  obtain ⟨s, w⟩ := m
  cases w with
  | some ck => exact h
  | none =>
    cases hn : sys.next s with
    | none => simpa only [System.step, hn] using h
    | some jt =>
      simp only [System.step, hn]
      exact o.holds_settle (o.body_ok h hn)

theorem Holds.resume {o : Outline sys ok} {m : Machine S C A} (h : o.Holds m) (a : Option A) :
    o.Holds (sys.step m (.resume a)) := by
  obtain ⟨s, w⟩ := m
  cases w with
  | none => exact h
  | some ck => exact o.holds_settle (h.2 a s (o.rely_refl s))

/-- What an outline says holds after every run it allows. -/
theorem Holds.run {o : Outline sys ok} {m : Machine S C A} (h : o.Holds m)
    (evs : List (Event I A)) (hevs : Admitted sys ok m evs) : o.Holds (sys.run m evs) := by
  induction evs generalizing m with
  | nil => exact h
  | cons e evs ih =>
    cases e with
    | input i => exact ih (h.input i hevs.1) hevs.2
    | start => exact ih h.start hevs
    | resume a => exact ih (h.resume a) hevs

end Outline

end System

/-! ### What a function keeps -/

/-- `I` is enough to wait, and holds again when the wait is over. -/
structure Terms.Stable (T : Terms S C A) (I : S → Prop) : Prop where
  yields : ∀ c s, I s → T.yields c (T.ask c s)
  rely : ∀ c s t, I s → T.rely (T.ask c s) t → I t
  answer : ∀ c a s, I s → I (T.answer c a s)

namespace Prog

/-- A function that starts with `I` has it wherever it waits and wherever it ends. -/
def Keeps (T : Terms S C A) (I : S → Prop) (x : Prog S C A α) : Prop :=
  ∀ s, I s → x.wp T (fun _ => I) I s

section Keeps

variable {T : Terms S C A} {I : S → Prop}

theorem keeps_pure (a : α) : Keeps T I (pure a : Prog S C A α) := fun _ h => h

theorem keeps_fail : Keeps T I (fail : Prog S C A α) := fun _ h => h

theorem keeps_get : Keeps T I (get : Prog S C A S) := fun _ h => h

theorem keeps_modify {f : S → S} (h : ∀ s, I s → I (f s)) :
    Keeps T I (modify f : Prog S C A Unit) := h

theorem keeps_need (o : Option α) : Keeps T I (need o : Prog S C A α) := fun s h =>
  (wp_need o).2 ⟨fun _ _ => h, fun _ => h⟩

theorem keeps_bind {x : Prog S C A α} {f : α → Prog S C A β} (hx : Keeps T I x)
    (hf : ∀ a, Keeps T I (f a)) : Keeps T I (x >>= f) := fun s h =>
  (wp_bind x f _).2 (wp_mono (hx s h) (fun a t ht => hf a t ht) fun _ ht => ht)

/-- The rest of a function may read the state it goes on from. -/
theorem keeps_get_bind {f : S → Prog S C A β} (hf : ∀ s, I s → (f s).wp T (fun _ => I) I s) :
    Keeps T I (get >>= f) := fun s h => (wp_bind get f _).2 (hf s h)

theorem keeps_attempt {x y : Prog S C A α} (hx : Keeps T I x) (hy : Keeps T I y) :
    Keeps T I (attempt x y) := fun s h =>
  (wp_attempt x y).2 (wp_mono (hx s h) (fun _ _ ht => ht) fun t ht => hy t ht)

theorem keeps_ensuring {x : Prog S C A α} {f : S → S} (hx : Keeps T I x) (hf : ∀ s, I s → I (f s)) :
    Keeps T I (ensuring x f) := fun s h =>
  (wp_ensuring x f).2 (wp_mono (hx s h) (fun _ t ht => hf t ht) fun t ht => hf t ht)

theorem keeps_ite {p : Prop} [Decidable p] {x y : Prog S C A α} (hx : Keeps T I x)
    (hy : Keeps T I y) : Keeps T I (if p then x else y) := by
  split
  · exact hx
  · exact hy

theorem keeps_call (hT : T.Stable I) (c : C) : Keeps T I (call c : Prog S C A A) := fun s h =>
  (wp_call c).2 ⟨hT.yields c s h, fun s' hr =>
    have hs' := hT.rely c s s' h hr
    ⟨fun b => hT.answer c (some b) s' hs', hT.answer c none s' hs'⟩⟩

theorem keeps_turn (hT : T.Stable I) (c : C) : Keeps T I (turn c : Prog S C A Unit) := fun s h =>
  (wp_turn c).2 ⟨hT.yields c s h, fun a s' hr => hT.answer c a s' (hT.rely c s s' h hr)⟩

/-- From `I` on a function ends with `Q`, however it ends. -/
def Leads (T : Terms S C A) (I Q : S → Prop) (x : Prog S C A α) : Prop :=
  ∀ s, I s → x.wp T (fun _ => Q) Q s

theorem Keeps.leads {Q : S → Prop} {x : Prog S C A α} (h : Keeps T I x) (hQ : ∀ s, I s → Q s) : Leads T I Q x :=
  fun s hs => wp_mono (h s hs) (fun _ t ht => hQ t ht) hQ

theorem leads_bind {Q : S → Prop} {x : Prog S C A α} {f : α → Prog S C A β} (hQ : ∀ s, I s → Q s)
    (hx : Keeps T I x) (hf : ∀ a, Leads T I Q (f a)) : Leads T I Q (x >>= f) := fun s h =>
  (wp_bind x f _).2 (wp_mono (hx s h) (fun a t ht => hf a t ht) hQ)

theorem leads_ite {Q : S → Prop} {p : Prop} [Decidable p] {x y : Prog S C A α} (hx : Leads T I Q x)
    (hy : Leads T I Q y) : Leads T I Q (if p then x else y) := by
  split
  · exact hx
  · exact hy

end Keeps

end Prog

/-! ### What only goes up -/

/-- Every stretch of work goes up in `le`: from `s` to the first wait, and from each wait to
the next when nothing else happens there. -/
def Out.Climbs (le : S → S → Prop) : Out S C A α → S → Prop
  | .ret _ t, s => le s t
  | .err t, s => le s t
  | .wait _ t k, s => le s t ∧ ∀ a, (k a t).Climbs le t

namespace Out

variable {le : S → S → Prop}

theorem climbs_trans (trans : ∀ s t u, le s t → le t u → le s u) {o : Out S C A α} {s t : S}
    (hst : le s t) (h : o.Climbs le t) : o.Climbs le s := by
  cases o with
  | ret a u => exact trans _ _ _ hst h
  | err u => exact trans _ _ _ hst h
  | wait c u k => exact ⟨trans _ _ _ hst h.1, h.2⟩

theorem climbs_bind (trans : ∀ s t u, le s t → le t u → le s u) {f : α → Prog S C A β}
    (hf : ∀ a t, (f a t).Climbs le t) {o : Out S C A α} {s : S} (h : o.Climbs le s) :
    (o.bind f).Climbs le s := by
  induction o generalizing s with
  | ret a t => exact climbs_trans trans (show le s t from h) (hf a t)
  | err t => exact h
  | wait c t k ih => exact ⟨h.1, fun a => ih a t (h.2 a)⟩

theorem climbs_orElse (trans : ∀ s t u, le s t → le t u → le s u) {x : Prog S C A α}
    (hx : ∀ t, (x t).Climbs le t) {o : Out S C A α} {s : S} (h : o.Climbs le s) :
    (o.orElse x).Climbs le s := by
  induction o generalizing s with
  | ret a t => exact h
  | err t => exact climbs_trans trans (show le s t from h) (hx t)
  | wait c t k ih => exact ⟨h.1, fun a => ih a t (h.2 a)⟩

end Out

namespace Prog

/-- From wherever it starts, a function only goes up. -/
def Climbs (le : S → S → Prop) (x : Prog S C A α) : Prop := ∀ s, (x s).Climbs le s

section Climbs

variable {le : S → S → Prop} (refl : ∀ s, le s s) (trans : ∀ s t u, le s t → le t u → le s u)

include refl

theorem climbs_pure (a : α) : Climbs le (pure a : Prog S C A α) := fun s => refl s

theorem climbs_fail : Climbs le (fail : Prog S C A α) := fun s => refl s

theorem climbs_get : Climbs le (get : Prog S C A S) := fun s => refl s

theorem climbs_need (o : Option α) : Climbs le (need o : Prog S C A α) := by
  cases o with
  | none => exact climbs_fail refl
  | some a => exact climbs_pure refl a

theorem climbs_call (c : C) : Climbs le (call c : Prog S C A A) := fun s => by
  refine ⟨refl s, fun a => ?_⟩
  cases a with
  | none => exact refl s
  | some b => exact refl s

theorem climbs_turn (c : C) : Climbs le (turn c : Prog S C A Unit) := fun s => ⟨refl s, fun _ => refl s⟩

omit refl

theorem climbs_modify {f : S → S} (h : ∀ s, le s (f s)) : Climbs le (modify f : Prog S C A Unit) := h

theorem climbs_ite {p : Prop} [Decidable p] {x y : Prog S C A α} (hx : Climbs le x) (hy : Climbs le y) :
    Climbs le (if p then x else y) := by
  split
  · exact hx
  · exact hy

include trans

theorem climbs_bind {x : Prog S C A α} {f : α → Prog S C A β} (hx : Climbs le x)
    (hf : ∀ a, Climbs le (f a)) : Climbs le (x >>= f) := fun s => Out.climbs_bind trans hf (hx s)

theorem climbs_attempt {x y : Prog S C A α} (hx : Climbs le x) (hy : Climbs le y) :
    Climbs le (attempt x y) := fun s => Out.climbs_orElse trans hy (hx s)

end Climbs

end Prog

end Async
