import SeedTransport.Native.NetHost

set_option autoImplicit false

namespace SeedTransport

namespace Inbound

/-- The reads of a link in the driver's hands. -/
def Side.due (s : Side) : Nat := (if 0 ≤ s.activeBytes then 1 else 0) + s.held.length

namespace TransportHost

/-! ### What the driver owes a link's socket -/

/-- The reads of a link the driver has, and the resumes it is about to make: each stands for one
read token it was left with. -/
def due (h : TransportHost) (k : Nat) : Nat :=
  (h.side k).due + h.starved.count k + h.stack.count (.resuming k)

variable {h : TransportHost} {k : Nat}

theorem due_setSide_ne (h : TransportHost) (s : Side) {j : Nat} (hj : j ≠ k) :
    (h.setSide k s).due j = h.due j := by
  simp [due, setSide_side_ne h s hj]

theorem due_setSide_self (h : TransportHost) (s : Side) :
    (h.setSide k s).due k + (h.side k).due = h.due k + s.due := by
  simp only [due, setSide_side, setSide_starved, setSide_stack]
  omega

theorem due_setSide (h : TransportHost) {s : Side} (hs : s.due = (h.side k).due) (j : Nat) :
    (h.setSide k s).due j = h.due j := by
  by_cases hj : j = k
  · subst hj
    have := due_setSide_self (k := j) h s
    omega
  · exact due_setSide_ne h s hj

theorem due_push (h : TransportHost) {os : List Op} (hos : ∀ j, Op.resuming j ∉ os) (j : Nat) :
    (h.push os).due j = h.due j := by
  simp [due, List.count_eq_zero_of_not_mem (hos j)]

theorem due_release (h : TransportHost) (length : Nat) {after : Op}
    (ha : ∀ j, after ≠ .resuming j) (j : Nat) :
    (h.releaseInboundRead length after).due j = h.due j := by
  simp [due, releaseInboundRead, ha j]

theorem due_resume (h : TransportHost) (k j : Nat) :
    (h.resume k).due j ≤ h.due j + if j = k then 1 else 0 := by
  unfold resume
  split
  · omega
  · have hset : (h.setSide k { h.side k with told := some true }).due j = h.due j :=
      due_setSide h (by simp [Side.due]) j
    simp only [due, push_side, push_starved, push_stack, List.singleton_append] at hset ⊢
    by_cases hj : j = k
    · subst hj
      simp only [List.count_cons_self, if_true]
      omega
    · have hne : Op.resuming k ≠ .resuming j := fun he => hj (Op.resuming.inj he).symm
      rw [List.count_cons_of_ne hne]
      omega

theorem due_finished (h : TransportHost) (k j : Nat) : (h.finished k).due j = h.due j :=
  due_release h _ (by simp) j

theorem due_handOver (h : TransportHost) (k : Nat) (bytes : Bytes) (j : Nat) :
    (h.handOver k bytes).due j = h.due j := by
  unfold handOver
  split
  · exact due_finished h k j
  · rw [due_push _ (by simp)]
    exact due_setSide h (by simp [Side.due]) j

/-- A read is in flight that was not. -/
theorem due_active (h : TransportHost) {s : Side} (hs : s.held = (h.side k).held)
    (ha : (h.side k).activeBytes < 0) (ha' : 0 ≤ s.activeBytes) (j : Nat) :
    (h.setSide k s).due j = h.due j + if j = k then 1 else 0 := by
  by_cases hj : j = k
  · subst hj
    have hneg : ¬ 0 ≤ (h.side j).activeBytes := by omega
    have := due_setSide_self (k := j) h s
    simp only [Side.due, hs, ha', hneg, if_true, if_false] at this
    rw [if_pos rfl]
    omega
  · rw [due_setSide_ne h s hj, if_neg hj]
    rfl

theorem due_dispatchRead (ha : (h.side k).activeBytes < 0) (bytes : Bytes) (j : Nat) :
    (h.dispatchRead k bytes).due j = h.due j + if j = k then 1 else 0 := by
  unfold dispatchRead
  simp only
  split
  · rw [due_push _ (by simp)]
    exact due_active h (by simp) ha (by simp) j
  · rw [due_handOver]
    exact due_active h (by simp) ha (by simp) j

theorem due_failReadSide (h : TransportHost) (k j : Nat) : (h.failReadSide k).due j = h.due j :=
  due_push h (by simp) j

/-- A read taken off those held goes to the occupant in its place; else the socket is owed one. -/
theorem due_readNext (ha : (h.side k).activeBytes < 0) (j : Nat) :
    (h.readNext k).due j ≤ h.due j + if j = k ∧ (h.side k).held = [] then 1 else 0 := by
  unfold readNext
  split
  · rw [due_push _ (by simp)]
    omega
  · split
    · omega
    · split
      case h_1 bytes rest hheld =>
        have hd := due_dispatchRead (h := h.setSide k { h.side k with held := rest }) (k := k)
          (by simpa using ha) bytes j
        rw [hd]
        by_cases hj : j = k
        · subst hj
          have := due_setSide_self (k := j) h { h.side j with held := rest }
          simp only [Side.due, hheld, List.length_cons] at this
          simp
          omega
        · rw [due_setSide_ne h _ hj, if_neg hj]
          omega
      case h_2 hheld =>
        split
        · simp only [due, List.count_append, List.count_singleton, hheld]
          by_cases hj : j = k
          · subst hj
            simp
            omega
          · have hne : ¬ k = j := fun he => hj he.symm
            simp [hne]
        · simpa [hheld] using due_resume h k j

/-- An op that is no resume comes off the stack. -/
theorem due_pop {op : Op} {rest : List Op} (hs : h.stack = op :: rest) (hop : ∀ j, op ≠ .resuming j)
    (j : Nat) : ({ h with stack := rest } : TransportHost).due j = h.due j := by
  simp [due, hs, List.count_cons_of_ne (hop j)]

theorem due_replace {op : Op} {rest : List Op} (hs : h.stack = op :: rest)
    (hop : ∀ j, op ≠ .resuming j) (os : List Op) (hos : ∀ j, Op.resuming j ∉ os) (j : Nat) :
    ({ h with stack := os ++ rest } : TransportHost).due j = h.due j := by
  simp [due, hs, List.count_cons_of_ne (hop j), List.count_eq_zero_of_not_mem (hos j)]

/-- A read that is over makes room for one. -/
theorem due_over (h : TransportHost) {s : Side} (ha : 0 ≤ (h.side k).activeBytes)
    (hs : s.held = (h.side k).held) (hneg : s.activeBytes < 0) :
    (h.setSide k s).due k + 1 = h.due k := by
  have := due_setSide_self (k := k) h s
  have hn : ¬ 0 ≤ s.activeBytes := by omega
  simp only [Side.due, ha, hn, hs, if_true, if_false] at this
  omega

theorem due_emptied (h : TransportHost) {s : Side} (hs : s.activeBytes = (h.side k).activeBytes)
    (he : s.held = []) : (h.setSide k s).due k ≤ h.due k := by
  have := due_setSide_self (k := k) h s
  simp only [Side.due, hs, he, List.length_nil] at this
  omega

theorem busy_active (q : h.Kept False) {op : Op} {rest : List Op} (hs : h.stack = op :: rest)
    (hl : op.link = some k) (hb : op.busy = true) : 0 ≤ (h.side k).activeBytes := by
  have t := q.tended k
  unfold TendedAt at t
  have hops : h.ops k = op :: ({ h with stack := rest } : TransportHost).ops k := by
    rw [ops_pop hs k]
    simp [hl]
  rw [hops] at t
  exact (t.busy_only hb).2.2

theorem due_idle (q : h.Kept False) {op : Op} {rest : List Op} (hs : h.stack = op :: rest)
    (hl : op.link = some k) (hb : op.busy = true) (j : Nat) :
    (({ h with stack := rest } : TransportHost).setSide k
      { h.side k with activeBytes := -1 }).due j + (if j = k then 1 else 0) = h.due j := by
  have ha := busy_active q hs hl hb
  have hpop := due_pop hs (by rintro i rfl; simp [Op.busy] at hb) j
  by_cases hj : j = k
  · subst hj
    rw [if_pos rfl, ← hpop]
    exact due_over { h with stack := rest } ha rfl (by simp)
  · rw [due_setSide_ne _ _ hj, if_neg hj]
    omega

theorem due_go (q : h.Kept False) (j : Nat) : h.go.due j ≤ h.due j := by
  unfold go
  split
  case h_1 hs =>
    split
    · omega
    · simp [due]
  case h_2 rest hs =>
    split
    case h_1 hst => exact (due_pop hs (by simp) j).le
    case h_2 k starved hst =>
      split
      · exact (due_pop hs (by simp) j).le
      · have hr := due_resume { h with starved } k j
        have hd : ({ h with starved } : TransportHost).due j + (if j = k then 1 else 0) = h.due j := by
          simp only [due, hst, List.count_cons, beq_iff_eq]
          by_cases hj : j = k
          · simp [hj]
            omega
          · have hne : ¬ k = j := fun he => hj he.symm
            simp [hj, hne]
        omega
  case h_3 k n rest hs =>
    have hd := due_idle q hs rfl rfl j
    have hr := due_readNext (h := ({ h with stack := rest } : TransportHost).setSide k
      { h.side k with activeBytes := -1 }) (k := k) (by simp) j
    have : (if j = k ∧ ((({ h with stack := rest } : TransportHost).setSide k
      { h.side k with activeBytes := -1 }).side k).held = [] then 1 else 0) ≤
        if j = k then 1 else 0 := by split <;> simp_all
    omega
  case h_4 k n rest hs =>
    have hd := due_idle q hs rfl rfl j
    rw [due_failReadSide]
    omega
  case h_5 k freed after rest hs =>
    have hpop := due_pop hs (by simp) j
    split
    · rw [due_release _ _ (by simp)]
      omega
    · have hset : (({ h with stack := rest } : TransportHost).setSide k
          { h.side k with held := [] }).due j ≤ h.due j := by
        by_cases hj : j = k
        · subst hj
          rw [← hpop]
          exact due_emptied { h with stack := rest } rfl rfl
        · rw [due_setSide_ne _ _ hj]
          omega
      cases after with
      | nothing => exact hset
      | channelClosed => exact hset
      | dropLink =>
        simp only
        rw [due_push _ (by simp)]
        exact hset
  case h_6 k rest hs => exact (due_replace hs (by simp) [.shutting k] (by simp) j).le
  case h_7 => omega

/-- What the call on top of the stack takes with it when it comes back. -/
def resuming (h : TransportHost) (j : Nat) : Nat :=
  match h.stack with
  | .resuming k :: _ => if j = k then 1 else 0
  | _ => 0

theorem due_back (h : TransportHost) (a : Answer) (j : Nat) :
    (h.back a).due j + h.resuming j ≤ h.due j := by
  unfold back
  split
  case h_1 k rest hs =>
    have hpop : ({ h with stack := rest } : TransportHost).due j + h.resuming j = h.due j := by
      simp only [due, resuming, hs, List.count_cons, beq_iff_eq, Op.resuming.injEq]
      by_cases hj : j = k
      · simp [hj]
        omega
      · have hne : ¬ k = j := fun he => hj he.symm
        simp [hj, hne]
    split
    · rw [due_failReadSide]
      omega
    · omega
  case h_2 k rest hs =>
    have hpop := due_pop hs (by simp) j
    simp only [resuming, hs]
    split
    · rw [due_failReadSide]
      omega
    · omega
  case h_3 k bytes rest hs =>
    have hpop := due_pop hs (by simp) j
    simp only [resuming, hs]
    split
    · rw [due_release _ _ (by simp)]
      omega
    · rw [due_handOver]
      omega
  case h_4 k bytes rest hs =>
    have hpop := due_pop hs (by simp) j
    simp only [resuming, hs]
    split
    · rw [due_setSide _ (by simp [Side.due])]
      omega
    · rw [due_finished]
      omega
  case h_5 k rest hs =>
    have hpop := due_pop hs (by simp) j
    simp only [resuming, hs]
    exact hpop.le
  case h_6 k rest hs =>
    have hpop := due_pop hs (by simp) j
    simp only [resuming, hs]
    exact hpop.le
  case h_7 h1 h2 h3 h4 h5 h6 =>
    have hr : h.resuming j = 0 := by
      unfold resuming
      split
      · rename_i k rest hs
        exact absurd hs (h1 k rest)
      · rfl
    omega

theorem due_onData (h : TransportHost) (k : Nat) (bytes : Bytes) (j : Nat) :
    (h.onData k bytes).due j ≤ h.due j + if j = k then 1 else 0 := by
  unfold onData
  split
  · omega
  · have harrived : ∀ s : Side, s.due = (h.side k).due → (h.setSide k s).due j = h.due j :=
      fun s hs => due_setSide h hs j
    simp only
    split
    · rw [due_failReadSide, harrived _ (by simp [Side.due])]
      omega
    · split
      · rw [due_failReadSide, harrived _ (by simp [Side.due])]
        omega
      · rename_i h' hres
        have hside : h'.side = (h.setSide k { h.side k with
            arrived := (h.side k).arrived ++ [bytes] }).side ∧
            h'.due j = h.due j := by
          unfold reserveInboundRead at hres
          split at hres
          · cases hres
          · cases hres
            exact ⟨rfl, harrived _ (by simp [Side.due])⟩
        split
        · rename_i hidle
          rw [due_dispatchRead hidle.1, hside.2]
        · by_cases hj : j = k
          · subst hj
            have := due_setSide_self (k := j) h' { h'.side j with held := (h'.side j).held ++ [bytes] }
            simp only [Side.due, List.length_append, List.length_singleton] at this
            rw [if_pos rfl]
            omega
          · rw [due_setSide_ne _ _ hj, if_neg hj]
            omega

theorem due_onClose (h : TransportHost) (k j : Nat) : (h.onClose k).due j ≤ h.due j := by
  unfold onClose
  split
  · rw [due_push _ (by simp)]
  · exact le_rfl

/-- Only an unpause with nothing in hand makes a resume of its own. -/
theorem due_pause (h : TransportHost) (k : Nat) (on : Bool) (j : Nat) :
    (h.pause k on).due j ≤ h.due j +
      if j = k ∧ on = false ∧ k ∈ h.links ∧ (h.side k).activeBytes < 0 ∧ (h.side k).held = [] then 1
      else 0 := by
  unfold pause
  split
  · omega
  · rename_i hk
    have hset : ∀ s : Side, s.due = (h.side k).due → (h.setSide k s).due j = h.due j :=
      fun s hs => due_setSide h hs j
    simp only
    split
    · split
      · rw [due_push _ (by simp), due_setSide _ (by simp [Side.due]), hset _ (by simp [Side.due])]
        omega
      · rw [hset _ (by simp [Side.due])]
        omega
    · rename_i hon
      split
      · rename_i hneg
        have hneg' : (h.side k).activeBytes < 0 := by simpa using hneg
        have hr := due_readNext hneg j
        rw [hset _ (by simp [Side.due])] at hr
        have hon' : on = false := by simpa using hon
        have hk' : k ∈ h.links := by simpa using hk
        rw [releaseRead, if_neg (by simpa using hneg')]
        refine hr.trans ?_
        simp [hon', hk', hneg']
      · rw [hset _ (by simp [Side.due])]
        omega

theorem due_register (h : TransportHost) (pausable : Bool) (j : Nat) :
    (h.register pausable).due j ≤ h.due j := by
  unfold register
  split
  · exact le_rfl
  · by_cases hj : j = h.nextLinkId
    · subst hj
      simp [due, Side.due, Side.new]
    · simp [due, hj]

theorem due_reset (hs : h.stack = []) (bind : Bool) (j : Nat) : (h.reset bind).due j ≤ h.due j := by
  have hnone : (h.links.map Op.dropLink).count (.resuming j) = 0 :=
    List.count_eq_zero_of_not_mem (by simp)
  simp only [due, reset, hnone, hs, List.count_nil]
  exact le_rfl

theorem due_settle (q : h.Kept False) (hs : h.stack = []) (k : Nat)
    (hr : (h.side k).inRealm = true) (j : Nat) :
    ((h.setSide k { h.side k with inRealm := false }).releaseRead k).due j ≤ h.due j := by
  have ha := (q.at_rest hs k).2.1 hr
  unfold releaseRead
  rw [if_pos (by simpa using ha), due_finished]
  exact (due_setSide h (by simp [Side.due]) j).le

/-- A step gives a socket no more than the read it brings, or an unpause with nothing in hand;
a resume that was made is no longer owed. -/
theorem due_step (q : h.Kept False) (l : Label) (j : Nat) :
    (h.step l).due j + (match l with | .back _ => h.resuming j | _ => 0) ≤ h.due j +
      match l with
      | .onData k _ => if j = k then 1 else 0
      | .pause k on =>
        if h.Rest ∧ h.bound ∧ j = k ∧ on = false ∧ k ∈ h.links ∧ (h.side k).activeBytes < 0 ∧
          (h.side k).held = [] then 1 else 0
      | _ => 0 := by
  cases l with
  | go => exact due_go q j
  | back a => exact due_back h a j
  | onData k bytes =>
    simp only [step]
    split
    · exact due_onData h k bytes j
    · simp
  | onClose k =>
    simp only [step]
    split
    · exact due_onClose h k j
    · simp
  | register pausable =>
    simp only [step]
    split
    · exact due_register h pausable j
    · simp
  | pause k on =>
    simp only [step]
    split
    · rename_i hg
      have := due_pause h k on j
      simpa [hg.1, hg.2] using this
    · simp
  | close k =>
    simp only [step]
    split
    · exact (due_push h (by simp) j).le
    · simp
  | sendThrew k =>
    simp only [step]
    split
    · exact (due_push h (by simp) j).le
    · simp
  | settle k =>
    simp only [step]
    split
    · rename_i hg
      exact due_settle q hg.1.1 k hg.2 j
    · simp
  | microtask =>
    simp only [step]
    split
    · simp
    · split
      · exact le_rfl
      · simp
  | activate =>
    simp only [step]
    split
    · rename_i hg
      unfold activate
      split
      · exact due_reset (h := { h with bound := false }) hg.1.1 true j
      · exact le_rfl
    · simp
  | release =>
    simp only [step]
    split
    · rename_i hg
      unfold release
      split
      · exact due_reset (h := { h with bound := false }) hg.1 false j
      · exact le_rfl
    · simp
  | reset =>
    simp only [step]
    split
    · rename_i hg
      exact due_reset hg.1 false j
    · simp
  | shut =>
    simp only [step]
    split
    · rename_i hg
      unfold close
      split
      · exact le_rfl
      · exact due_reset (h := { h with closed := true, bound := false }) hg.1 false j
    · simp

end TransportHost

end Inbound

end SeedTransport
