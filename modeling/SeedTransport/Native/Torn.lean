import SeedTransport.Native.ReadToken

set_option autoImplicit false

namespace SeedTransport

namespace Native

open Inbound (TransportHost)

/-- The reader reads no more. -/
def Channel.over (c : Channel) : Bool := c.dead || decide (c.reader = .failing)

/-- The reader has the token, or has taken what it stood for. -/
def ReadLoop.holds : ReadLoop → Nat
  | .checking | .reading => 1
  | _ => 0

def ReadLoop.blocked : ReadLoop → Nat
  | .reading => 1
  | _ => 0

def Task.lends (k : Nat) : Task → Bool
  | .deliver j _ => decide (j = k)
  | .closed _ => false

/-- What a task hands over of the channel's buffer as it is. -/
def Task.borrows (k : Nat) (chunk : Bytes) : Task → Option Bytes
  | .deliver j length => if j = k then some (chunk.take length) else none
  | .closed _ => none

namespace NetHost

/-- The reads of a channel that were posted and not delivered. -/
def lent (n : NetHost) (k : Nat) : Nat := n.tasks.countP (Task.lends k)

/-- What the loop would copy for them now. -/
def posted (n : NetHost) (k : Nat) : List Bytes :=
  n.tasks.filterMap (Task.borrows k (n.channel k).chunk)

/-- Where a channel's one read token may be: in the gate, with the reader, in the buffer that is
lent, or with the driver. -/
def tokens (n : NetHost) (k : Nat) : Nat :=
  (n.channel k).readGate.toNat + (n.channel k).reader.holds + n.lent k + n.driver.due k

/-- Nothing of the channel's is out, or it reads no more: the driver has yet to resume it. -/
def Owed (n : NetHost) (k : Nat) : Prop :=
  (n.channel k).over = true ∨
    ((n.channel k).readGate = false ∧ (n.channel k).reader.holds = 0 ∧ n.lent k = 0 ∧
      k ∉ n.driver.starved)

instance (n : NetHost) (k : Nat) : Decidable (n.Owed k) := inferInstanceAs (Decidable (_ ∨ _))

/-- The occupant unpauses a link only while it has a read of it, the driver holds one for it, or
the socket is owed a resume. -/
def Meets (n : NetHost) : Label → Prop
  | .driver (.pause k on) =>
    on = true ∨ k ∉ n.driver.links ∨ 0 ≤ (n.driver.side k).activeBytes ∨
      (n.driver.side k).held ≠ [] ∨ n.Owed k
  | _ => True

/-- `Meets`, decided. -/
def isMet (n : NetHost) : Label → Bool
  | .driver (.pause k on) =>
    decide (on = true ∨ k ∉ n.driver.links ∨ 0 ≤ (n.driver.side k).activeBytes ∨
      (n.driver.side k).held ≠ [] ∨ n.Owed k)
  | _ => true

theorem isMet_iff (n : NetHost) (l : Label) : n.isMet l = true ↔ n.Meets l := by
  unfold isMet Meets
  split <;> simp

instance (n : NetHost) (l : Label) : Decidable (n.Meets l) := decidable_of_iff _ (isMet_iff n l)

/-- No read is torn: what `conn.Read` returned is what was delivered, in order, and what the loop
would copy now; one read at most is out, and while it is no token is to be had. -/
structure Whole (n : NetHost) : Prop where
  exact : ∀ k, (n.channel k).reads = (n.channel k).delivered ++ n.posted k
  one : ∀ k, n.lent k ≤ 1
  spent : ∀ k, n.lent k = 1 → (n.channel k).over = false →
    (n.channel k).readGate = false ∧ (n.channel k).reader.holds = 0

/-- What holds between any two moves. -/
structure Kept (n : NetHost) : Prop where
  driver : n.driver.Kept False
  single : ∀ k, (n.channel k).over = false → n.tokens k ≤ 1
  ended : ∀ k, (n.channel k).over = true → (n.channel k).reader.blocked + n.lent k ≤ 1
  exact : ∀ k, (n.channel k).reads = (n.channel k).delivered ++ n.posted k

variable {n n' : NetHost} {k : Nat}

theorem blocked_le_holds (r : ReadLoop) : r.blocked ≤ r.holds := by cases r <;> simp [ReadLoop.blocked, ReadLoop.holds]

theorem Kept.out (q : n.Kept) (k : Nat) : (n.channel k).reader.blocked + n.lent k ≤ 1 := by
  cases ho : (n.channel k).over with
  | true => exact q.ended k ho
  | false =>
    have := q.single k ho
    have := blocked_le_holds (n.channel k).reader
    unfold tokens at *
    omega

theorem Kept.whole (q : n.Kept) : n.Whole where
  exact := q.exact
  one := fun k => by
    have := q.out k
    omega
  spent := fun k hl ho => by
    have h := q.single k ho
    unfold tokens at h
    cases hg : (n.channel k).readGate with
    | true => simp [hg] at h; omega
    | false => exact ⟨rfl, by omega⟩

theorem setChannel_ne (n : NetHost) (c : Channel) {j : Nat} (hj : j ≠ k) :
    (n.setChannel k c).channel j = n.channel j := by simp [setChannel, hj]

@[simp] theorem setChannel_self (n : NetHost) (c : Channel) : (n.setChannel k c).channel k = c := by
  simp [setChannel]

@[simp] theorem setChannel_driver (n : NetHost) (c : Channel) :
    (n.setChannel k c).driver = n.driver := rfl

@[simp] theorem setChannel_lent (n : NetHost) (c : Channel) (j : Nat) :
    (n.setChannel k c).lent j = n.lent j := rfl

theorem posted_setChannel (n : NetHost) {c : Channel} (hc : c.chunk = (n.channel k).chunk) (j : Nat) :
    (n.setChannel k c).posted j = n.posted j := by
  by_cases hj : j = k
  · subst hj
    simp only [posted, setChannel_self, hc]
    rfl
  · simp only [posted, setChannel_ne n c hj]
    rfl

/-- A move of channel `k` alone, with the buffer as it was. -/
theorem Kept.move (q : n.Kept) (hd : n'.driver.Kept False) (hdue : ∀ j, j ≠ k → n'.driver.due j ≤ n.driver.due j)
    (hother : ∀ j, j ≠ k → n'.channel j = n.channel j)
    (hlent : ∀ j, n'.lent j = n.lent j) (hposted : ∀ j, n'.posted j = n.posted j)
    (hone : (n'.channel k).over = false → n'.tokens k ≤ 1)
    (hended : (n'.channel k).over = true → (n'.channel k).reader.blocked ≤ (n.channel k).reader.blocked)
    (hreads : (n'.channel k).reads = (n.channel k).reads)
    (hdelivered : (n'.channel k).delivered = (n.channel k).delivered) : n'.Kept where
  driver := hd
  single := fun j ho => by
    by_cases hj : j = k
    · subst hj
      exact hone ho
    · have := hdue j hj
      have h := q.single j (by rwa [hother j hj] at ho)
      unfold tokens at h ⊢
      rw [hother j hj, hlent]
      omega
  ended := fun j ho => by
    by_cases hj : j = k
    · subst hj
      have := hended ho
      have := q.out j
      rw [hlent]
      omega
    · rw [hother j hj] at ho ⊢
      rw [hlent]
      exact q.ended j ho
  exact := fun j => by
    rw [hposted]
    by_cases hj : j = k
    · subst hj
      rw [hreads, hdelivered]
      exact q.exact j
    · rw [hother j hj]
      exact q.exact j

/-- A move of the driver's alone. -/
theorem Kept.drive (q : n.Kept) {d : TransportHost} (hd : d.Kept False)
    (h : ∀ j, (n.channel j).over = false → n.tokens j ≤ 1 →
      n.tokens j + d.due j ≤ 1 + n.driver.due j) : ({ n with driver := d } : NetHost).Kept where
  driver := hd
  single := fun j ho => by
    have hj := h j ho (q.single j ho)
    unfold tokens at hj ⊢
    simp only [lent] at hj ⊢
    omega
  ended := q.ended
  exact := q.exact

theorem Kept.driveLe (q : n.Kept) {d : TransportHost} (hd : d.Kept False)
    (h : ∀ j, d.due j ≤ n.driver.due j) : ({ n with driver := d } : NetHost).Kept :=
  q.drive hd fun j _ ht => by
    have := h j
    omega

/-- A channel that reads no more is in no one's way. -/
theorem Kept.finish (q : n.Kept) {c : Channel} (hover : c.over = true)
    (hblocked : c.reader.blocked ≤ (n.channel k).reader.blocked) (hreads : c.reads = (n.channel k).reads)
    (hdelivered : c.delivered = (n.channel k).delivered) (hchunk : c.chunk = (n.channel k).chunk) :
    (n.setChannel k c).Kept := by
  refine q.move (k := k) q.driver (fun _ _ => le_rfl) (fun j hj => setChannel_ne n c hj)
    (fun _ => rfl) (fun j => ?_) ?_ ?_ ?_ ?_
  · exact posted_setChannel n hchunk j
  · simp [hover]
  · simpa using fun _ => hblocked
  · simpa using hreads
  · simpa using hdelivered

theorem Kept.terminate (q : n.Kept) (k : Nat) : (n.terminate k).Kept := by
  unfold NetHost.terminate
  split
  · exact q
  · exact q.finish (by simp [Channel.over]) le_rfl rfl rfl rfl

theorem terminate_over (n : NetHost) (k : Nat) : ((n.terminate k).channel k).over = true := by
  unfold NetHost.terminate
  split <;> simp_all [Channel.over]

@[simp] theorem terminate_driver (n : NetHost) (k : Nat) : (n.terminate k).driver = n.driver := by
  unfold NetHost.terminate
  split <;> rfl

theorem Kept.close (q : n.Kept) (k : Nat) : (n.close k).Kept := by
  unfold NetHost.close
  split
  · have hover := terminate_over n k
    exact (q.terminate k).finish (by simpa [Channel.over] using hover) le_rfl rfl rfl rfl
  · exact q

@[simp] theorem close_driver (n : NetHost) (k : Nat) : (n.close k).driver = n.driver := by
  unfold NetHost.close
  split
  · exact terminate_driver n k
  · rfl

/-- A task that lends nothing. -/
theorem Kept.postClosed (q : n.Kept) (k : Nat) : (n.post (.closed k)).Kept where
  driver := q.driver
  single := fun j ho => by
    have h := q.single j ho
    unfold tokens at h ⊢
    simpa [lent, post, Task.lends] using h
  ended := fun j ho => by
    have h := q.ended j ho
    simpa [lent, post, Task.lends] using h
  exact := fun j => by
    have h := q.exact j
    simpa [posted, post, List.filterMap_cons, Task.borrows] using h

theorem Kept.fail (q : n.Kept) (k : Nat) : (n.fail k).Kept := by
  unfold NetHost.fail
  split
  · exact q
  · exact (q.terminate k).postClosed k

theorem fail_over (n : NetHost) (k : Nat) : ((n.fail k).channel k).dead = true := by
  unfold NetHost.fail NetHost.terminate
  split
  · assumption
  · simp [post]

theorem Kept.back (q : n.Kept) (a : Inbound.TransportHost.Answer) :
    ({ n.adapter with driver := n.driver.step (.back a) } : NetHost).Kept := by
  have hd : (n.driver.step (.back a)).Kept False := TransportHost.step_kept q.driver (.back a) nofun
  have hdue := fun j => TransportHost.due_step q.driver (.back a) j
  have hle : ∀ j, (n.driver.step (.back a)).due j ≤ n.driver.due j := fun j => by
    have := hdue j
    simp only at this
    omega
  unfold adapter
  split
  case h_1 k rest hs =>
    unfold NetHost.resume
    split
    · refine q.move (k := k) hd (fun j _ => hle j) (fun j hj => setChannel_ne n _ hj) (fun _ => rfl)
        (posted_setChannel n rfl) (fun ho => ?_) (by simp) (by simp) (by simp)
      · have h := q.single k (by simpa [Channel.over] using ho)
        have hk := hdue k
        simp only [TransportHost.resuming, hs, if_true] at hk
        have hlent : ∀ d, ({ n.setChannel k { n.channel k with readGate := true } with driver := d } :
          NetHost).lent k = n.lent k := fun _ => rfl
        unfold tokens at h ⊢
        rw [hlent]
        simp only [setChannel_self, Bool.toNat_true]
        omega
    · exact q.driveLe hd hle
  case h_2 k rest hs =>
    have := (q.close k).driveLe (d := n.driver.step (.back a)) hd (by simpa using hle)
    exact this
  case h_3 k rest hs =>
    have := (q.close k).driveLe (d := n.driver.step (.back a)) hd (by simpa using hle)
    exact this
  case h_4 => exact q.driveLe hd hle

/-- The occupant's and the driver's other moves. -/
theorem Kept.driver_step (q : n.Kept) {l : TransportHost.Label} (hm : n.Meets (.driver l)) :
    (n.step (.driver l)).Kept := by
  have hd : (n.driver.step l).Kept False := TransportHost.step_kept q.driver l nofun
  have hdue := fun j => TransportHost.due_step q.driver l j
  cases l with
  | onData _ _ => exact q
  | onClose _ => exact q
  | register _ => exact q
  | back a => exact q.back a
  | pause k on =>
    refine q.drive hd fun j ho ht => ?_
    have hj := hdue j
    simp only [add_zero] at hj
    split at hj
    · rename_i hg
      obtain ⟨hrest, -, rfl, hon, hk, hneg, hheld⟩ := hg
      have howed : n.Owed j := by
        rcases hm with hm | hm | hm | hm | hm
        · simp [hon] at hm
        · exact absurd hk hm
        · omega
        · exact absurd hheld hm
        · exact hm
      rcases howed with hover | ⟨hgate, hholds, hlent, hstarved⟩
      · simp [ho] at hover
      · have hz : n.driver.due j = 0 := by
          have hn : ¬ 0 ≤ (n.driver.side j).activeBytes := by omega
          simp [TransportHost.due, Inbound.Side.due, hn, hheld, hrest.1,
            List.count_eq_zero_of_not_mem hstarved]
        have hnone : n.tokens j = 0 := by simp [tokens, hgate, hholds, hlent, hz]
        omega
    · omega
  | go | close _ | sendThrew _ | settle _ | microtask | activate | release | reset | shut =>
    exact q.driveLe hd fun j => by simpa using hdue j

theorem Kept.makeLink (q : n.Kept) : n.makeLink.Kept :=
  q.driveLe (TransportHost.step_kept q.driver (.register true) nofun) fun j => by
    simpa using TransportHost.due_step q.driver (.register true) j

/-- The loop copies the read at the head, and the driver has it instead. -/
theorem Kept.copied (q : n.Kept) {length : Nat} {rest : List Task}
    (hts : n.tasks = .deliver k length :: rest) (hts' : n'.tasks = rest)
    (hself : n'.channel k = { n.channel k with
      delivered := (n.channel k).delivered ++ [(n.channel k).chunk.take length] })
    (hother : ∀ j, j ≠ k → n'.channel j = n.channel j) (hd : n'.driver.Kept False)
    (hdue : ∀ j, n'.driver.due j ≤ n.driver.due j + if j = k then 1 else 0) : n'.Kept := by
  have hlent : ∀ j, n.lent j = (if j = k then 1 else 0) + n'.lent j := fun j => by
    by_cases hj : j = k
    · simp [lent, hts, hts', Task.lends, hj]
      omega
    · have hne : ¬ k = j := fun he => hj he.symm
      simp [lent, hts, hts', Task.lends, hj, hne]
  have hover : ∀ j, (n'.channel j).over = (n.channel j).over ∧
      (n'.channel j).reader = (n.channel j).reader ∧
      (n'.channel j).readGate = (n.channel j).readGate := fun j => by
    by_cases hj : j = k
    · subst hj
      simp [hself, Channel.over]
    · simp [hother j hj]
  exact {
    driver := hd
    single := fun j ho => by
      have h := q.single j ((hover j).1 ▸ ho)
      have := hdue j
      have := hlent j
      unfold tokens at h ⊢
      rw [(hover j).2.1, (hover j).2.2]
      omega
    ended := fun j ho => by
      have h := q.ended j ((hover j).1 ▸ ho)
      have := hlent j
      rw [(hover j).2.1]
      omega
    exact := fun j => by
      have h := q.exact j
      by_cases hj : j = k
      · subst hj
        simpa [posted, hself, hts, hts', List.filterMap_cons, Task.borrows] using h
      · have hne : ¬ k = j := fun he => hj he.symm
        rw [hother j hj, h]
        simp [posted, hother j hj, hts, hts', List.filterMap_cons, Task.borrows, hne] }

theorem Kept.task (q : n.Kept) : n.task.Kept := by
  unfold NetHost.task
  split
  case h_1 => exact q
  case h_2 k length rest hts =>
    simp only
    split
    · have hd := TransportHost.step_kept q.driver (.onData k ((n.channel k).chunk.take length)) nofun
      have hdue := TransportHost.due_step q.driver (.onData k ((n.channel k).chunk.take length))
      exact q.copied hts rfl (setChannel_self _ _) (fun j hj => setChannel_ne _ _ hj) hd fun j => by
        simpa using hdue j
    · exact q.copied hts rfl (setChannel_self _ _) (fun j hj => setChannel_ne _ _ hj) q.driver
        fun j => Nat.le_add_right _ _
  case h_3 k rest hts =>
    have hlent : ∀ j, rest.countP (Task.lends j) = n.lent j := fun j => by
      simp [lent, hts, Task.lends]
    have q' : ({ n with tasks := rest } : NetHost).Kept := {
      driver := q.driver
      single := fun j ho => by
        have h := q.single j ho
        unfold tokens at h ⊢
        rw [← hlent] at h
        exact h
      ended := fun j ho => by
        have h := q.ended j ho
        rw [← hlent] at h
        exact h
      exact := fun j => by
        have h := q.exact j
        simpa [posted, hts, List.filterMap_cons, Task.borrows] using h }
    have q'' : (({ n with tasks := rest } : NetHost).setChannel k
        { n.channel k with listed := false }).Kept :=
      q'.move (k := k) q.driver (fun _ _ => le_rfl) (fun j hj => setChannel_ne _ _ hj)
        (fun _ => rfl) (posted_setChannel _ rfl)
        (fun ho => by
          have h := q'.single k (by simpa [Channel.over] using ho)
          unfold tokens at h ⊢
          simpa only [setChannel_self, setChannel_lent, setChannel_driver] using h)
        (by simp) (by simp) (by simp)
    simp only
    split
    · have hdue := TransportHost.due_step q.driver (.onClose k)
      exact q''.driveLe (TransportHost.step_kept q.driver (.onClose k) nofun) fun j => by
        simpa using hdue j
    · exact q''

/-- A move of the reader's alone, which has the token it had. -/
theorem Kept.readerMove (q : n.Kept) {c : Channel} (hover : c.over = false → (n.channel k).over = false)
    (hheld : c.over = false → c.readGate.toNat + c.reader.holds ≤
      (n.channel k).readGate.toNat + (n.channel k).reader.holds)
    (hblocked : c.over = true → c.reader.blocked ≤ (n.channel k).reader.blocked)
    (hreads : c.reads = (n.channel k).reads) (hdelivered : c.delivered = (n.channel k).delivered)
    (hchunk : c.chunk = (n.channel k).chunk) : (n.setChannel k c).Kept :=
  q.move (k := k) q.driver (fun _ _ => le_rfl) (fun j hj => setChannel_ne n c hj) (fun _ => rfl)
    (posted_setChannel n hchunk)
    (fun ho => by
      rw [setChannel_self] at ho
      have h := q.single k (hover ho)
      have := hheld ho
      unfold tokens at h ⊢
      simp only [setChannel_self, setChannel_lent, setChannel_driver]
      omega)
    (by simpa using hblocked) (by simpa using hreads) (by simpa using hdelivered)

theorem Kept.reader (q : n.Kept) (k : Nat) : (n.reader k).Kept := by
  unfold NetHost.reader
  simp only
  split
  case h_1 hr =>
    split
    · rename_i hg
      exact q.readerMove (by simp [Channel.over, hr]) (by simp [hr, hg, ReadLoop.holds])
        (by simp [ReadLoop.blocked]) rfl rfl rfl
    · exact q
  case h_2 hr =>
    cases hd : (n.channel k).dead with
    | true =>
      exact q.readerMove (by simp [Channel.over]) (by simp [Channel.over])
        (by simp [ReadLoop.blocked]) rfl rfl rfl
    | false =>
      exact q.readerMove (by simp [Channel.over, hd, hr]) (by simp [hr, ReadLoop.holds])
        (by simp [Channel.over]) rfl rfl rfl
  case h_3 hr =>
    have hdead := fail_over n k
    exact (q.fail k).finish (by simp [Channel.over, hdead]) (by simp [ReadLoop.blocked]) rfl rfl rfl
  all_goals exact q

/-- A read fills the buffer, which nothing lends, and is posted. -/
theorem Kept.filled (q : n.Kept) (hr : (n.channel k).reader = .reading) {bytes : Bytes} {r : ReadLoop}
    (hholds : r.holds = 0) (hn : r ≠ .reading) :
    ((n.setChannel k { n.channel k with
      chunk := bytes ++ (n.channel k).chunk.drop bytes.length
      reads := (n.channel k).reads ++ [bytes]
      reader := r }).post (.deliver k bytes.length)).Kept := by
  have hnone : n.lent k = 0 := by
    have := q.out k
    simp only [hr, ReadLoop.blocked] at this
    omega
  have hblocked : r.blocked = 0 := by cases r <;> simp_all [ReadLoop.blocked]
  have hpost : n.posted k = [] := by
    have hz := hnone
    rw [lent, List.countP_eq_zero] at hz
    rw [posted, List.filterMap_eq_nil_iff]
    intro t ht
    have := hz t ht
    cases t <;> simp_all [Task.lends, Task.borrows]
  set c : Channel := { n.channel k with
    chunk := bytes ++ (n.channel k).chunk.drop bytes.length
    reads := (n.channel k).reads ++ [bytes]
    reader := r } with hc
  generalize hm : (n.setChannel k c).post (.deliver k bytes.length) = m
  have hself : m.channel k = c := by rw [← hm]; exact setChannel_self n c
  have hother : ∀ j, j ≠ k → m.channel j = n.channel j := fun j hj => by
    rw [← hm]
    exact setChannel_ne n c hj
  have htasks : m.tasks = n.tasks ++ [.deliver k bytes.length] := by rw [← hm]; rfl
  have hdriver : m.driver = n.driver := by rw [← hm]; rfl
  have hlent : ∀ j, m.lent j = n.lent j + if j = k then 1 else 0 := fun j => by
    by_cases hj : j = k
    · simp [lent, htasks, Task.lends, hj]
    · have hne : ¬ k = j := fun he => hj he.symm
      simp [lent, htasks, Task.lends, hj, hne]
  exact {
    driver := hdriver ▸ q.driver
    single := fun j ho => by
      have hl := hlent j
      by_cases hj : j = k
      · subst hj
        have hlive : (n.channel j).over = false := by
          rw [hself] at ho
          simp_all [Channel.over]
        have h := q.single j hlive
        have hh : c.reader.holds = 0 := hholds
        have hg : c.readGate = (n.channel j).readGate := rfl
        rw [if_pos rfl] at hl
        unfold tokens at h ⊢
        simp only [hr, ReadLoop.holds] at h
        rw [hself, hdriver, hh, hg]
        omega
      · rw [hother j hj] at ho
        have h := q.single j ho
        rw [if_neg hj] at hl
        unfold tokens at h ⊢
        rw [hother j hj, hdriver]
        omega
    ended := fun j ho => by
      have hl := hlent j
      by_cases hj : j = k
      · subst hj
        rw [if_pos rfl] at hl
        rw [hself]
        simp only [hc]
        omega
      · rw [hother j hj] at ho ⊢
        have h := q.ended j ho
        rw [if_neg hj] at hl
        omega
    exact := fun j => by
      have h := q.exact j
      by_cases hj : j = k
      · subst hj
        rw [hpost, List.append_nil] at h
        have hnil : n.tasks.filterMap (Task.borrows j c.chunk) = [] := by
          have hz := hnone
          rw [lent, List.countP_eq_zero] at hz
          rw [List.filterMap_eq_nil_iff]
          intro t ht
          have := hz t ht
          cases t <;> simp_all [Task.lends, Task.borrows]
        have hnew : Task.borrows j c.chunk (.deliver j bytes.length) = some bytes := by
          simp [Task.borrows, hc]
        rw [posted, hself, htasks, List.filterMap_append, hnil, List.filterMap_cons, hnew]
        simp [hc, h]
      · have hne : ¬ k = j := fun he => hj he.symm
        rw [hother j hj, h]
        simp [posted, hother j hj, htasks, Task.borrows, List.filterMap_cons, hne] }

theorem Kept.read (q : n.Kept) (k : Nat) (bytes : Bytes) (error : Bool) :
    (n.read k bytes error).Kept := by
  unfold NetHost.read
  simp only
  split
  · rename_i hg
    have hr := hg.1
    split
    · cases error with
      | true =>
        exact q.finish (by simp [Channel.over]) (by simp [ReadLoop.blocked]) rfl rfl rfl
      | false =>
        exact q.readerMove (by simp [Channel.over, hr]) (by simp [hr, ReadLoop.holds])
          (by simp [ReadLoop.blocked]) rfl rfl rfl
    · cases error <;> exact q.filled hr (by simp [ReadLoop.holds]) (by simp)
  · exact q

theorem Kept.step (q : n.Kept) {l : Label} (hm : n.Meets l) : (n.step l).Kept := by
  cases l with
  | driver l => exact q.driver_step hm
  | makeLink => exact q.makeLink
  | task =>
    simp only [NetHost.step]
    split
    · exact q.task
    · exact q
  | silent k =>
    simp only [NetHost.step]
    split
    · have hdue := TransportHost.due_step q.driver (.onClose k)
      exact (q.close k).driveLe (TransportHost.step_kept q.driver (.onClose k) nofun) fun j => by
        simpa using hdue j
    · exact q
  | start k =>
    simp only [NetHost.step]
    split
    · rename_i hg
      cases hd : (n.channel k).dead with
      | true =>
        exact q.readerMove (by simp [Channel.over]) (by simp [Channel.over])
          (by simp [ReadLoop.blocked]) rfl rfl rfl
      | false =>
        exact q.readerMove (by simp [Channel.over, hd, hg.2]) (by simp [hg.2, ReadLoop.holds])
          (by simp [Channel.over]) rfl rfl rfl
    · exact q
  | reader k => exact q.reader k
  | read k bytes error => exact q.read k bytes error
  | fail k =>
    simp only [NetHost.step]
    split
    · exact q.fail k
    · exact q

theorem new_kept (maxRawLinks : Nat) : (new maxRawLinks).Kept where
  driver := TransportHost.new_kept False maxRawLinks
  single := fun k _ => by
    simp [tokens, lent, new, Channel.new, ReadLoop.holds, TransportHost.due, TransportHost.new,
      Inbound.Side.due, Inbound.Side.new]
  ended := fun k ho => by simp [new, Channel.new, Channel.over] at ho
  exact := fun k => by simp [new, Channel.new, posted]

/-- Every unpause of a run is of a link the driver has a read of, or owes a resume. -/
def Measured (n : NetHost) : List Label → Prop
  | [] => True
  | l :: labels => n.Meets l ∧ (n.step l).Measured labels

instance instDecidableMeasured (n : NetHost) (labels : List Label) :
    Decidable (n.Measured labels) :=
  match labels with
  | [] => isTrue trivial
  | l :: labels =>
    have := instDecidableMeasured (n.step l) labels
    inferInstanceAs (Decidable (n.Meets l ∧ (n.step l).Measured labels))

theorem Kept.run (q : n.Kept) {labels : List Label} (hm : n.Measured labels) :
    (n.run labels).Kept := by
  induction labels generalizing n with
  | nil => exact q
  | cons l labels ih => exact ih (q.step hm.1) hm.2

/-- Where no link is unpaused that has a read granted, no run tears one. -/
theorem run_whole (maxRawLinks : Nat) (labels : List Label)
    (hm : (new maxRawLinks).Measured labels) : ((new maxRawLinks).run labels).Whole :=
  ((new_kept maxRawLinks).run hm).whole

/-- A link is paused while its read is in the realm, and unpaused once the read has settled. -/
def pausedRun : List Label :=
  [.driver .activate, .makeLink, .start 1, .reader 1, .reader 1, .read 1 [1] false, .task,
    .driver (.back .returned), .driver (.back .returned), .driver (.pause 1 true),
    .driver (.back .returned), .driver (.settle 1), .driver .go, .driver .go,
    .driver (.pause 1 false), .driver (.back .returned), .reader 1, .reader 1, .read 1 [2] false,
    .task]

theorem pausedRun_whole :
    ((new 4).run pausedRun).Whole ∧
      (((new 4).run pausedRun).channel 1).delivered = [[1], [2]] :=
  ⟨run_whole 4 pausedRun (by decide), by decide⟩

/-- A link is paused and unpaused while its reader waits in `conn.Read`, and two reads come
before the loop takes the first. -/
def unpausedRun : List Label :=
  [.driver .activate, .makeLink, .start 1, .reader 1, .reader 1, .driver (.pause 1 true),
    .driver (.back .returned), .driver (.pause 1 false), .driver (.back .returned),
    .read 1 [1] false, .reader 1, .reader 1, .read 1 [2] false, .task]

/-- The first read is delivered as the second. -/
theorem unpausedRun_torn : ¬ ((new 4).run unpausedRun).Whole ∧
    (((new 4).run unpausedRun).channel 1).reads = [[1], [2]] ∧
    (((new 4).run unpausedRun).channel 1).delivered = [[2]] := by
  refine ⟨fun hw => ?_, by decide, by decide⟩
  have hexact := hw.exact 1
  revert hexact
  decide

end NetHost

end Native

end SeedTransport
