import SeedTransport.Native.Duplex

set_option autoImplicit false

namespace SeedTransport

namespace Native

/-! ### How a channel that ended comes to rest -/

/-- What a goroutine that reads may still do once the channel is dead. -/
def Reader.work : Reader → Nat
  | .dialing => 9
  | .landed => 8
  | .late | .spawning => 7
  | .pending => 6
  | .reading => 5
  | .resuming | .failing => 4
  | .gate => 3
  | .checking => 2
  | .ending todo => todo.length

def Writer.work : Writer → Nat
  | .unstarted => 5
  | .writing batch k => 12 + (byteTotal batch - k)
  | .failing _ _ => 11
  | .ending _ _ todo => 5 + todo.length
  | .settling _ _ => 4
  | .waiting => 4
  | .checking => 3
  | .closing => 1
  | .exited => 0

def Writer.writes : Writer → Bool
  | .writing _ _ => true
  | _ => false

namespace SockChannel

variable {c c' : SockChannel}

def work (c : SockChannel) : Nat :=
  c.loop.length + c.reader.work + c.writer.work +
    if c.queue = [] then 0 else 20 + byteTotal c.queue

/-- A move of a goroutine's, rather than a call of the loop's. -/
def Label.own : Label → Bool
  | .send _ | .close _ => false
  | _ => true

theorem terminate_settled (flush notify : Bool) (hd : c.dead = true) :
    (c.terminate flush notify).2 = [] ∧ (c.terminate flush notify).1.queue = c.queue := by
  rw [terminate_dead flush notify hd]
  exact ⟨rfl, rfl⟩

theorem terminate_ends (flush notify : Bool) : (c.terminate flush notify).1.dead = true := by
  cases hd : c.dead <;> simp [SockChannel.terminate, hd]

theorem dead_step {l : Label} (hd : c.dead = true) (h : c.step l = some c') : c'.dead = true := by
  cases l with
  | send bytes =>
    simp only [SockChannel.step] at h
    split at h <;> cases h
    simp [SockChannel.send, hd]
  | close graceful =>
    simp only [SockChannel.step] at h
    split at h <;> cases h
    exact terminate_ends graceful false
  | reader =>
    simp only [SockChannel.step, SockChannel.readerStep] at h
    split at h
    case h_8 => cases h; exact terminate_ends false true
    case h_9 a rest _ => cases h; exact (act_dead a).trans hd
    all_goals
      first
      | cases h <;> exact hd
      | split at h <;> cases h <;> exact hd
  | writer =>
    simp only [SockChannel.step, SockChannel.writerStep] at h
    split at h
    case h_3 => cases h; exact terminate_ends false true
    case h_4 batch k a rest _ => cases h; exact (act_dead a).trans hd
    all_goals
      first
      | cases h <;> exact hd
      | split at h <;> cases h <;> exact hd
  | loop =>
    simp only [SockChannel.step] at h
    split at h <;> cases h
    rename_i a rest _
    exact (act_dead a).trans hd
  | dialed ok =>
    simp only [SockChannel.step] at h
    split at h <;> cases h
    cases ok <;> exact hd
  | read _ =>
    simp only [SockChannel.step] at h
    split at h <;> cases h
    exact hd
  | wrote _ | written =>
    simp only [SockChannel.step] at h
    split at h
    · split at h <;> cases h
      exact hd
    · cases h
  | writeError =>
    simp only [SockChannel.step] at h
    split at h <;> cases h
    exact hd

theorem work_step {l : Label} (hd : c.dead = true) (h : c.step l = some c') :
    c'.work + (if l.own then 1 else 0) ≤ c.work := by
  cases l with
  | send bytes =>
    simp only [SockChannel.step] at h
    split at h <;> cases h
    rename_i hl
    simp [SockChannel.send, hd, work, Label.own, hl]
  | close graceful =>
    simp only [SockChannel.step] at h
    split at h <;> cases h
    rename_i hl
    simp [close, terminate_settled graceful false hd, work, Label.own, hl]
  | loop =>
    simp only [SockChannel.step] at h
    split at h <;> cases h
    rename_i a rest hl
    simp only [work, act_reader, act_writer, act_queue, hl, List.length_cons, Label.own, if_true]
    omega
  | dialed ok =>
    simp only [SockChannel.step] at h
    split at h <;> cases h
    rename_i hr
    cases ok <;> simp [work, hr, Reader.work, Label.own]
  | reader =>
    simp only [SockChannel.step, SockChannel.readerStep] at h
    split at h
    case h_1 hr =>
      simp only [hd, if_true] at h
      cases h
      simp only [work, hr, Reader.work, Label.own, if_true]
      omega
    case h_8 hr =>
      cases h
      simp [work, fail, hr, terminate_settled false true hd, Reader.work, Label.own]
    case h_5 hr =>
      split at h <;> cases h
      simp only [work, hr, Reader.work, Label.own, if_true]
      omega
    case h_6 hr =>
      simp only [hd, if_true] at h
      cases h
      simp only [work, hr, Reader.work, Label.own, if_true, List.length_nil]
      omega
    case h_9 a rest hr =>
      cases h
      simp only [work, hr, Reader.work, Label.own, if_true, act_writer, act_loop, act_queue, List.length_cons]
      omega
    case h_3 hr =>
      cases h
      simp only [work, hr, Reader.work, Writer.work, Label.own, if_true]
      omega
    case h_2 hr | h_4 hr | h_7 hr =>
      cases h
      simp only [work, hr, Reader.work, Label.own, if_true, List.length_nil]
      omega
    all_goals cases h
  | read how =>
    simp only [SockChannel.step] at h
    split at h <;> cases h
    rename_i hr
    cases how <;> simp only [work, hr, Reader.work, Label.own, if_true] <;> omega
  | writer =>
    simp only [SockChannel.step, SockChannel.writerStep] at h
    split at h
    case h_1 hw =>
      split at h <;> cases h
      case isTrue hq =>
        simp only [work, hw, hq, Writer.work, Label.own, if_true]
        omega
      case isFalse hq =>
        simp only [work, hw, hq, Writer.work, Label.own, if_true, if_false]
        omega
    case h_2 hw =>
      split at h <;> cases h
      simp only [work, hw, Writer.work, Label.own, if_true]
      omega
    case h_3 batch k hw =>
      cases h
      simp only [work, fail, hw, terminate_settled false true hd, terminate_loop, terminate_reader,
        Writer.work, Label.own, if_true, List.length_nil]
      omega
    case h_4 batch k a rest hw =>
      cases h
      simp only [work, hw, Writer.work, Label.own, if_true, act_reader, act_loop, act_queue,
        List.length_cons]
      omega
    case h_5 batch k hw | h_6 batch k hw =>
      cases h
      simp only [work, hw, Writer.work, Label.own, if_true, List.length_nil]
      omega
    case h_7 hw =>
      cases h
      simp only [work, hw, Writer.work, Label.own, if_true]
      omega
    all_goals cases h
  | wrote n =>
    simp only [SockChannel.step] at h
    split at h
    case h_1 batch k hw =>
      split at h <;> cases h
      simp only [work, hw, Writer.work, Label.own, if_true]
      omega
    case h_2 => cases h
  | written =>
    simp only [SockChannel.step] at h
    split at h
    case h_1 batch k hw =>
      split at h <;> cases h
      simp only [work, hw, Writer.work, Label.own, if_true]
      omega
    case h_2 => cases h
  | writeError =>
    simp only [SockChannel.step] at h
    split at h
    case h_1 batch k hw =>
      cases h
      simp only [work, hw, Writer.work, Label.own, if_true]
      omega
    case h_2 => cases h

theorem work_run {ls : List Label} (hd : c.dead = true) (h : c.run ls = some c') :
    c'.dead = true ∧ ls.countP Label.own + c'.work ≤ c.work := by
  induction ls generalizing c with
  | nil =>
    cases h
    exact ⟨hd, by simp⟩
  | cons l ls ih =>
    obtain ⟨c₁, h₁, h₂⟩ := Option.bind_eq_some_iff.1 h
    obtain ⟨hd', hle⟩ := ih (dead_step hd h₁) h₂
    have := work_step hd h₁
    rw [List.countP_cons]
    exact ⟨hd', by omega⟩

/-- Nothing is left for a goroutine to do, but to wait for the network. -/
def AtRest (c : SockChannel) : Prop :=
  c.loop = [] ∧ c.readerStep = none ∧ c.writerStep = none ∧ c.writer.writes = false

instance (c : SockChannel) : Decidable c.AtRest := inferInstanceAs (Decidable (_ ∧ _ ∧ _ ∧ _))

theorem rest_reader (hr : c.AtRest) : c.reader.todo = [] ∧
    (c.reader = .dialing ∨ c.reader = .reading ∨ c.reader = .gate ∨ c.reader = .ending []) := by
  have h := hr.2.1
  cases hrd : c.reader with
  | landed =>
    simp only [readerStep, hrd] at h
    split at h <;> cases h
  | ending rest => cases rest <;> simp [readerStep, hrd, Reader.todo] at h ⊢
  | dialing | reading | gate => simp [Reader.todo]
  | _ => simp [readerStep, hrd] at h

/-- The writer of a channel that ended does not wait for ever. -/
theorem rest_writer (t : c.Threads) (w : c.Woken) (hd : c.dead = true) (hr : c.AtRest)
    (hconn : c.conn = true) : c.writer = .exited := by
  obtain ⟨htodo, hreader⟩ := rest_reader hr
  have hns : c.reader ≠ .spawning := by rcases hreader with h | h | h | h <;> simp [h]
  have hstarted : c.writer ≠ .unstarted := (t.started.1 hconn).resolve_right hns
  have h := hr.2.2.1
  have hw := hr.2.2.2
  cases hwr : c.writer with
  | unstarted => exact absurd hwr hstarted
  | exited => rfl
  | waiting =>
    have hwake : c.wake = false := by
      cases hk : c.wake
      · rfl
      · simp [writerStep, hwr, hk] at h
    rcases w hwr (.inr hd) with hk | hs
    · simp [hwake] at hk
    · simp [todo, hr.1, htodo, hwr, Writer.todo] at hs
  | checking =>
    simp only [writerStep, hwr] at h
    split at h <;> cases h
  | writing batch k => simp [hwr, Writer.writes] at hw
  | failing batch k => simp [writerStep, hwr] at h
  | ending batch k rest => cases rest <;> simp [writerStep, hwr] at h
  | settling batch k => simp [writerStep, hwr] at h
  | closing => simp [writerStep, hwr] at h

theorem rest_closed (t : c.Threads) (w : c.Woken) (hd : c.dead = true) (hr : c.AtRest)
    (hl : c.landed = true) : c.closed = true := by
  cases hconn : c.conn with
  | true => exact t.left (rest_writer t w hd hr hconn)
  | false =>
    rcases (rest_reader hr).2 with h | h | h | h
    · simp [t.dialing h] at hl
    · simp [t.reading (by simp [h])] at hconn
    · simp [t.reading (by simp [h])] at hconn
    · simpa [hl] using t.unopened hconn (.inr ⟨_, h⟩)

/-- What a flushing close leaves to be written is written, unless a write fails. -/
theorem rest_flushed (b : c.Books) (t : c.Threads) (w : c.Woken) (hr : c.AtRest)
    (he : c.ends.head? = some (.close true true)) (hf : c.writeFailed = false)
    (hconn : c.conn = true) : c.wire = c.accepted.flatten := by
  have hd : c.dead = true := b.ended.2 (by rintro h; simp [h] at he)
  have hw := rest_writer t w hd hr hconn
  have hq := (t.leaving (.inr hw)).2
  have hnot : c.dropped = false := by
    obtain ⟨es, hes⟩ := List.head?_eq_some_iff.1 he
    simp [dropped, hes, End.flushes]
  rw [b.clean hf, b.all hnot]
  simp [unwritten, hw, hq, Writer.batch, Writer.sent]

/-! ### What was connected stays so -/

/-- A call that found a connection came after it. -/
def Connected (c : SockChannel) : Prop := ∀ graceful, .close graceful true ∈ c.ends → c.conn = true

theorem Connected.mono (k : c.Connected) (hends : c'.ends = c.ends)
    (hconn : c.conn = true → c'.conn = true) : c'.Connected :=
  fun g he => hconn (k g (hends ▸ he))

theorem Connected.terminate (k : c.Connected) (flush notify : Bool) :
    (c.terminate flush notify).1.Connected := by
  have hends : (c.terminate flush notify).1.ends =
      c.ends ++ [if notify then .fail c.conn else .close flush c.conn] := by
    cases hd : c.dead <;> simp [SockChannel.terminate, hd]
  have hconn : (c.terminate flush notify).1.conn = c.conn := by
    cases hd : c.dead <;> simp [SockChannel.terminate, hd]
  intro g he
  rw [hends, List.mem_append, List.mem_singleton] at he
  rw [hconn]
  rcases he with he | he
  · exact k g he
  · cases notify <;> simp_all

theorem Connected.act (k : c.Connected) (a : Act) : (c.act a).Connected := by
  cases a <;> exact k

theorem Connected.step (k : c.Connected) {l : Label} (h : c.step l = some c') : c'.Connected := by
  cases l with
  | send bytes =>
    simp only [SockChannel.step] at h
    split at h <;> cases h
    cases hd : c.dead <;> exact k.mono (by simp [SockChannel.send, hd]) (by simp [SockChannel.send, hd])
  | close graceful =>
    simp only [SockChannel.step] at h
    split at h <;> cases h
    exact (k.terminate graceful false).mono rfl id
  | reader =>
    simp only [SockChannel.step, SockChannel.readerStep] at h
    split at h
    case h_8 => cases h; exact (k.terminate false true).mono rfl id
    case h_9 a rest _ => cases h; exact (k.act a).mono rfl id
    case h_1 =>
      split at h <;> cases h
      · exact k
      · exact k.mono rfl fun _ => rfl
    all_goals
      first
      | cases h <;> exact k.mono rfl id
      | split at h <;> cases h <;> exact k.mono rfl id
  | writer =>
    simp only [SockChannel.step, SockChannel.writerStep] at h
    split at h
    case h_3 => cases h; exact (k.terminate false true).mono rfl id
    case h_4 batch j a rest _ => cases h; exact (k.act a).mono rfl id
    all_goals
      first
      | cases h <;> exact k.mono rfl id
      | split at h <;> cases h <;> exact k.mono rfl id
  | loop =>
    simp only [SockChannel.step] at h
    split at h <;> cases h
    rename_i a rest _
    exact (k.act a).mono rfl id
  | dialed ok =>
    simp only [SockChannel.step] at h
    split at h <;> cases h
    cases ok <;> exact k.mono rfl id
  | read _ =>
    simp only [SockChannel.step] at h
    split at h <;> cases h
    exact k.mono rfl id
  | wrote _ | written =>
    simp only [SockChannel.step] at h
    split at h
    · split at h <;> cases h
      exact k.mono rfl id
    · cases h
  | writeError =>
    simp only [SockChannel.step] at h
    split at h <;> cases h
    exact k.mono rfl id

/-! ### Every run -/

/-- What holds between any two moves. -/
structure Kept (c : SockChannel) : Prop where
  books : c.Books
  threads : c.Threads
  woken : c.Woken
  notices : c.Notices
  connected : c.Connected

theorem Kept.step (k : c.Kept) {l : Label} (h : c.step l = some c') : c'.Kept where
  books := k.books.step k.threads h
  threads := k.threads.step h
  woken := k.woken.step h
  notices := k.notices.step k.books.ended k.threads h
  connected := k.connected.step h

theorem Kept.run (k : c.Kept) {ls : List Label} (h : c.run ls = some c') : c'.Kept := by
  induction ls generalizing c with
  | nil =>
    cases h
    exact k
  | cons l ls ih =>
    obtain ⟨c₁, h₁, h₂⟩ := Option.bind_eq_some_iff.1 h
    exact ih (k.step h₁) h₂

/-- A channel as it is made. -/
def Made (c : SockChannel) : Prop := c = newDialChannel ∨ c = newInboundChannel

theorem Made.kept (h : c.Made) : c.Kept := by
  have hin : InOrder [] [] := inOrder_take [] 0
  rcases h with rfl | rfl
  · refine ⟨⟨by decide, by decide, by decide, by decide, by decide, by decide, ⟨[], hin, rfl⟩,
      fun _ => rfl, fun _ => trivial, by decide⟩, ?_, nofun, rfl, nofun⟩
    constructor <;> simp [newDialChannel]
  · refine ⟨⟨by decide, by decide, by decide, by decide, by decide, by decide, ⟨[], hin, rfl⟩,
      fun _ => rfl, fun _ => trivial, by decide⟩, ?_, nofun, rfl, nofun⟩
    constructor <;> simp [newInboundChannel]

/-- What a channel's callers rely on at any time. While it lives, what is counted is what was
sent and is not through the writer, which has all before it on the connection. -/
structure Sound (c : SockChannel) : Prop where
  order : InOrder c.accepted c.wire
  counted : c.dead = false → c.buffered = byteTotal c.unwritten ∧
    c.accepted = c.done ++ c.unwritten ∧
    ∃ k ≤ byteTotal c.writer.batch, c.wire = c.done.flatten ++ c.unwritten.flatten.take k
  nonneg : 0 ≤ c.buffered
  emptied : c.dropped = true → c.buffered = 0
  woken : c.Woken
  once : c.notified ≤ 1
  failed : 0 < c.notified → ∃ connected, c.ends.head? = some (.fail connected)

theorem Kept.sound (k : c.Kept) : c.Sound where
  order := by
    obtain ⟨w, hin, hw⟩ := k.books.wired
    rw [hw]
    refine (hin.append (inOrder_take c.writer.batch c.writer.sent)).mono ?_
    have := k.books.taken
    rw [unwritten, ← List.append_assoc] at this
    exact (List.prefix_append _ _).trans this
  counted := fun hd => by
    have hnil : c.ends = [] := by
      by_contra hne
      simp [k.books.ended.2 hne] at hd
    have hnot : c.dropped = false := by simp [dropped, hnil]
    have hclean : c.writeFailed = false := by
      cases hf : c.writeFailed
      · rfl
      · simp [k.books.upset hf] at hd
    have hcount := k.books.counted
    rw [hnot, if_neg Bool.false_ne_true] at hcount
    refine ⟨hcount, k.books.all hnot, c.writer.sent, k.books.within, ?_⟩
    rw [k.books.clean hclean, unwritten, List.flatten_append, List.take_append_of_le_length]
    rw [← byteTotal_eq]
    exact k.books.within
  nonneg := by
    rw [buffered, k.books.counted]
    split <;> omega
  emptied := fun hd => by rw [buffered, k.books.counted, if_pos hd]
  woken := k.woken
  once := by
    have h := k.notices
    unfold Notices at h
    have := Bool.toNat_le c.failed
    omega
  failed := fun hn => by
    have h := k.notices
    unfold Notices at h
    have hf : c.failed = true := by
      cases hf : c.failed
      · simp [hf] at h
        omega
      · rfl
    cases he : c.ends with
    | nil => simp [SockChannel.failed, he] at hf
    | cons e es =>
      cases e with
      | close _ _ => simp [SockChannel.failed, he, End.failed] at hf
      | fail connected => exact ⟨connected, rfl⟩

/-- Any run of a channel: what went out is what was sent, in order and once; no wake-up is lost;
`onClose` runs once at most, for a failure before any close. A channel that ended comes to
rest, its connection closed; and what a graceful close of a connected channel found queued is
written, unless a write fails. -/
theorem run_channel {c₀ : SockChannel} (h₀ : c₀.Made) {ls : List Label} (h : c₀.run ls = some c) :
    c.Sound ∧
    (c.dead = true → ∀ ls' c', c.run ls' = some c' →
      c'.dead = true ∧ ls'.countP Label.own + c'.work ≤ c.work) ∧
    (c.dead = true → c.AtRest → (c.landed = true → c.closed = true) ∧
      (c.ends.head? = some (.close true true) → c.writeFailed = false →
        c.wire = c.accepted.flatten)) := by
  have k := h₀.kept.run h
  refine ⟨k.sound, fun hd ls' c' h' => work_run hd h', fun hd hr => ⟨?_, fun he hf => ?_⟩⟩
  · exact rest_closed k.threads k.woken hd hr
  · have hconn := k.connected true (List.mem_of_head? he)
    exact rest_flushed k.books k.threads k.woken hr he hf hconn

/-- An accepted socket sends, is closed, and its goroutines end. -/
def flushRun : List Label :=
  [.send [1, 2], .loop, .close true, .loop, .loop, .loop, .writer, .wrote 2, .written, .writer,
    .writer, .writer, .reader, .reader, .reader]

theorem flushRun_sound : ∃ c, newInboundChannel.run flushRun = some c ∧ c.Sound ∧ c.AtRest ∧
    c.closed = true ∧ c.wire = [1, 2] := by
  obtain ⟨c, hc⟩ := Option.isSome_iff_exists.1 (by decide : (newInboundChannel.run flushRun).isSome)
  have hrest : c.AtRest ∧ c.dead = true ∧ c.landed = true ∧ c.writeFailed = false ∧
      c.ends.head? = some (.close true true) ∧ c.accepted.flatten = [1, 2] := by
    cases hc
    decide
  obtain ⟨hsound, -, hended⟩ := run_channel (.inr rfl) hc
  obtain ⟨hclosed, hflushed⟩ := hended hrest.2.1 hrest.1
  exact ⟨c, hc, hsound, hrest.1, hclosed hrest.2.2.1,
    (hflushed hrest.2.2.2.2.1 hrest.2.2.2.1).trans hrest.2.2.2.2.2⟩

/-- A dial is closed gracefully while it is in flight. -/
def earlyClose : List Label :=
  [.send [1], .loop, .close true, .loop, .loop, .loop, .dialed false, .reader]

/-- A hard close follows a graceful one. -/
def closedTwice : List Label := [.send [1], .loop, .close true, .loop, .loop, .loop, .close false]

theorem earlyClose_loses :
    (∃ c, newDialChannel.run earlyClose = some c ∧ c.AtRest ∧
      c.ends.head? = some (.close true false) ∧ c.writeFailed = false ∧
      c.wire ≠ c.accepted.flatten) ∧
    ∃ c, newInboundChannel.run closedTwice = some c ∧ .close false true ∈ c.ends ∧
      c.buffered ≠ 0 := by
  constructor
  · obtain ⟨c, hc⟩ := Option.isSome_iff_exists.1 (by decide : (newDialChannel.run earlyClose).isSome)
    refine ⟨c, hc, ?_⟩
    cases hc
    decide
  · obtain ⟨c, hc⟩ := Option.isSome_iff_exists.1 (by decide : (newInboundChannel.run closedTwice).isSome)
    refine ⟨c, hc, ?_⟩
    cases hc
    decide

end SockChannel

end Native

end SeedTransport
