import SeedTransport.Native.SockChannel

set_option autoImplicit false

namespace SeedTransport

namespace Native

/-! ### What a connection carries of the slices it was given -/

/-- `w` is a prefix of each slice, in the slices' order. -/
def InOrder (slices : List Bytes) (w : Bytes) : Prop :=
  ∃ ks : List Nat, ks.length = slices.length ∧ w = (List.zipWith List.take ks slices).flatten

theorem inOrder_take (slices : List Bytes) (k : Nat) : InOrder slices (slices.flatten.take k) := by
  induction slices generalizing k with
  | nil => exact ⟨[], rfl, by simp⟩
  | cons b rest ih =>
    obtain ⟨ks, hlen, heq⟩ := ih (k - b.length)
    exact ⟨k :: ks, by simp [hlen], by simp [List.take_append, heq]⟩

theorem InOrder.append {a b : List Bytes} {v w : Bytes} (ha : InOrder a v) (hb : InOrder b w) :
    InOrder (a ++ b) (v ++ w) := by
  obtain ⟨ks, hk, rfl⟩ := ha
  obtain ⟨js, hj, rfl⟩ := hb
  refine ⟨ks ++ js, by simp [hk, hj], ?_⟩
  rw [List.zipWith_append hk, List.flatten_append]

theorem InOrder.mono {a b : List Bytes} {w : Bytes} (ha : InOrder a w) (h : a <+: b) :
    InOrder b w := by
  obtain ⟨rest, rfl⟩ := h
  simpa using ha.append (inOrder_take rest 0)

theorem byteTotal_eq (batch : List Bytes) : byteTotal batch = batch.flatten.length := by
  rw [byteTotal, List.length_flatten]

@[simp] theorem byteTotal_append (a b : List Bytes) :
    byteTotal (a ++ b) = byteTotal a + byteTotal b := by
  simp [byteTotal]

@[simp] theorem byteTotal_nil : byteTotal [] = 0 := rfl

/-! ### Who has what in hand -/

/-- The batch the writer took off the queue and has not counted, and how much of it went. -/
def Writer.batch : Writer → List Bytes
  | .writing batch _ | .failing batch _ | .ending batch _ _ | .settling batch _ => batch
  | _ => []

def Writer.sent : Writer → Nat
  | .writing _ k | .failing _ k | .ending _ k _ | .settling _ k => k
  | _ => 0

/-- No error kept the batch from going out. -/
def Writer.Clean : Writer → Prop
  | .ending _ _ _ => False
  | .settling batch k => k = byteTotal batch
  | _ => True

def Writer.todo : Writer → List Act
  | .ending _ _ todo => todo
  | _ => []

def Reader.todo : Reader → List Act
  | .ending todo => todo
  | _ => []

namespace SockChannel

/-- What the channel's goroutines are about to do once their sections are over. -/
def todo (c : SockChannel) : List Act := c.loop ++ c.reader.todo ++ c.writer.todo

/-- The bytes of what the writer has not finished with. -/
def unwritten (c : SockChannel) : List Bytes := c.writer.batch ++ c.queue

/-- The first `terminate` dropped the queue. -/
def dropped (c : SockChannel) : Bool :=
  match c.ends with
  | [] => false
  | e :: _ => !e.flushes

/-- The channel ended by a failure. -/
def failed (c : SockChannel) : Bool :=
  match c.ends with
  | [] => false
  | e :: _ => e.failed

/-- The queue, its count and the connection. -/
structure Books (c : SockChannel) : Prop where
  ended : c.dead = true ↔ c.ends ≠ []
  counted : c.queued = if c.dropped then 0 else (byteTotal c.unwritten : Int)
  emptied : c.dropped = true → c.queue = []
  taken : c.done ++ c.unwritten <+: c.accepted
  all : c.dropped = false → c.accepted = c.done ++ c.unwritten
  within : c.writer.sent ≤ byteTotal c.writer.batch
  wired : ∃ w, InOrder c.done w ∧ c.wire = w ++ c.writer.batch.flatten.take c.writer.sent
  clean : c.writeFailed = false →
    c.wire = c.done.flatten ++ c.writer.batch.flatten.take c.writer.sent
  sound : c.writeFailed = false → c.writer.Clean
  upset : c.writeFailed = true → c.dead = true

/-- Where the goroutines stand. -/
structure Threads (c : SockChannel) : Prop where
  started : c.conn = true ↔ c.writer ≠ .unstarted ∨ c.reader = .spawning
  landed : c.conn = true → c.landed = true
  dialing : c.reader = .dialing → c.landed = false
  landing : c.reader = .landed ∨ c.reader = .late → c.conn = false ∧ c.landed = true
  late : c.reader = .late → c.dead = true
  spawning : c.reader = .spawning → c.writer = .unstarted
  reading : c.reader = .pending ∨ c.reader = .gate ∨ c.reader = .checking ∨ c.reader = .reading ∨
    c.reader = .resuming → c.conn = true
  unopened : c.conn = false → (c.reader = .failing ∨ ∃ todo, c.reader = .ending todo) →
    c.landed = false ∨ c.closed = true
  leaving : c.writer = .closing ∨ c.writer = .exited → c.dead = true ∧ c.queue = []
  left : c.writer = .exited → c.closed = true

/-- A writer that waits with something to do has its token, or it is on its way. -/
def Woken (c : SockChannel) : Prop :=
  c.writer = .waiting → c.queue ≠ [] ∨ c.dead = true → c.wake = true ∨ Act.signal ∈ c.todo

/-- `onClose` and its calls to come. -/
def Notices (c : SockChannel) : Prop :=
  c.notified + c.todo.count .onClose = c.failed.toNat

/-! ### The sections -/

variable {c c' : SockChannel}

theorem terminate_dead (flush notify : Bool) (hd : c.dead = true) :
    c.terminate flush notify =
      ({ c with ends := c.ends ++ [if notify then .fail c.conn else .close flush c.conn] }, []) := by
  simp [terminate, hd]

theorem terminate_live (flush notify : Bool) (hd : c.dead = false) :
    c.terminate flush notify =
      ({ c with
          dead := true
          queue := if !flush || !c.conn then [] else c.queue
          queued := if !flush || !c.conn then 0 else c.queued
          ends := c.ends ++ [if notify then .fail c.conn else .close flush c.conn] },
        (if c.dials then [.cancelDial] else []) ++
        (if c.conn then [if flush then .setWriteDeadline else .closeConn] else []) ++
        [.signal, .resume] ++ if notify then [.onClose] else []) := by
  simp [terminate, hd]

/-! ### The queue and the connection -/

/-- The fields `Books` speaks of. -/
def ledger (c : SockChannel) :=
  (c.queue, c.queued, c.dead, c.ends, c.accepted, c.done, c.wire, c.writeFailed, c.writer.batch,
    c.writer.sent)

theorem Books.congr (b : c.Books) (h : c'.ledger = c.ledger)
    (hk : c'.writeFailed = false → c'.writer.Clean) :
    c'.Books := by
  simp only [ledger, Prod.mk.injEq] at h
  obtain ⟨hq, hn, hd, he, ha, hdone, hw, hf, hb, hs⟩ := h
  have hdrop : c'.dropped = c.dropped := by simp only [dropped, he]
  have hunw : c'.unwritten = c.unwritten := by simp only [unwritten, hb, hq]
  exact {
    ended := by rw [hd, he]; exact b.ended
    counted := by rw [hn, hdrop, hunw]; exact b.counted
    emptied := by rw [hdrop, hq]; exact b.emptied
    taken := by rw [hdone, hunw, ha]; exact b.taken
    all := by rw [hdrop, hdone, hunw, ha]; exact b.all
    within := by rw [hs, hb]; exact b.within
    wired := by rw [hdone, hw, hb, hs]; exact b.wired
    clean := by rw [hf, hw, hdone, hb, hs]; exact b.clean
    sound := hk
    upset := by rw [hf, hd]; exact b.upset }

theorem Books.terminate (b : c.Books) (flush notify : Bool) (hn : notify = true → flush = false) :
    (c.terminate flush notify).1.Books := by
  by_cases hd : c.dead = true
  · have hne := b.ended.1 hd
    rw [terminate_dead flush notify hd]
    obtain ⟨e, es, hes⟩ := List.exists_cons_of_ne_nil hne
    have hdrop : ({ c with ends := c.ends ++ [if notify then .fail c.conn else .close flush c.conn] } :
        SockChannel).dropped = c.dropped := by
      simp [dropped, hes]
    exact {
      ended := by simp [hd]
      counted := by rw [hdrop]; exact b.counted
      emptied := by rw [hdrop]; exact b.emptied
      taken := b.taken
      all := by rw [hdrop]; exact b.all
      within := b.within
      wired := b.wired
      clean := b.clean
      sound := b.sound
      upset := b.upset }
  · have hd : c.dead = false := by simpa using hd
    have hnil : c.ends = [] := by
      by_contra hne
      have := b.ended.2 hne
      simp [hd] at this
    have hnot : c.dropped = false := by simp [dropped, hnil]
    have hcount := b.counted
    have hall := b.all hnot
    rw [hnot, if_neg Bool.false_ne_true] at hcount
    rw [terminate_live flush notify hd]
    cases hdrops : !flush || !c.conn with
    | true =>
      have hflush : (if notify then End.fail c.conn else .close flush c.conn).flushes = false := by
        cases notify
        · cases flush <;> simp_all [End.flushes]
        · rfl
      exact {
        ended := by simp
        counted := by simp [dropped, hnil, hflush]
        emptied := by simp
        taken := by
          have := b.taken
          simp only [unwritten, if_true, List.append_nil] at this ⊢
          rw [← List.append_assoc] at this
          exact (List.prefix_append _ _).trans this
        all := by simp [dropped, hnil, hflush]
        within := b.within
        wired := b.wired
        clean := b.clean
        sound := b.sound
        upset := fun _ => rfl }
    | false =>
      have hflush : flush = true ∧ c.conn = true := by simpa using hdrops
      have hquiet : notify = false := by
        cases notify
        · rfl
        · have := hn rfl
          simp [hflush.1] at this
      have hkeep : (if notify then End.fail c.conn else .close flush c.conn).flushes = true := by
        simp [hquiet, End.flushes, hflush.1, hflush.2]
      exact {
        ended := by simp
        counted := by
          simp only [dropped, hnil, List.nil_append, hkeep, Bool.not_true, Bool.false_eq_true, if_false]
          exact hcount
        emptied := by simp [dropped, hnil, hkeep]
        taken := b.taken
        all := fun _ => hall
        within := b.within
        wired := b.wired
        clean := b.clean
        sound := b.sound
        upset := fun _ => rfl }

theorem Books.send (b : c.Books) (bytes : Bytes) : (c.send bytes).1.Books := by
  cases hd : c.dead with
  | true =>
    simp only [SockChannel.send, hd, if_true]
    exact b
  | false =>
    have hnil : c.ends = [] := by
      by_contra hne
      have := b.ended.2 hne
      simp [hd] at this
    have hnot : c.dropped = false := by simp [dropped, hnil]
    have hcount := b.counted
    have hall := b.all hnot
    rw [hnot, if_neg Bool.false_ne_true] at hcount
    have hmore : (c.send bytes).1.accepted = c.done ++ (c.send bytes).1.unwritten := by
      simp [SockChannel.send, hd, hall, unwritten]
    simp only [SockChannel.send, hd, Bool.false_eq_true, if_false] at hmore ⊢
    exact {
      ended := by simp [hd, hnil]
      counted := by
        simp only [dropped, hnil, Bool.false_eq_true, if_false, hcount, unwritten, byteTotal_append]
        simp [byteTotal, add_assoc]
      emptied := by simp [dropped, hnil]
      taken := ⟨[], by rw [List.append_nil]; exact hmore.symm⟩
      all := fun _ => hmore
      within := b.within
      wired := b.wired
      clean := b.clean
      sound := b.sound
      upset := fun hf => absurd (b.upset hf) (by simp [hd]) }

theorem Books.act (b : c.Books) (a : Act) : (c.act a).Books := by
  cases a <;> exact b.congr rfl b.sound


theorem Books.readerStep (b : c.Books) (t : c.Threads) (h : c.readerStep = some c') : c'.Books := by
  unfold SockChannel.readerStep at h
  split at h
  · split at h <;> cases h <;> exact b.congr rfl b.sound
  · cases h
    exact b.congr rfl b.sound
  · rename_i hr
    cases h
    have hw := t.spawning hr
    exact b.congr (by simp [ledger, hw, Writer.batch, Writer.sent]) fun _ => trivial
  · cases h
    exact b.congr rfl b.sound
  · split at h <;> cases h
    exact b.congr rfl b.sound
  · cases h
    exact b.congr rfl b.sound
  · cases h
    exact b.congr rfl b.sound
  · cases h
    have b' := b.terminate false true fun _ => rfl
    exact b'.congr rfl b'.sound
  · rename_i a todo _
    cases h
    have b' := b.act a
    exact b'.congr rfl b'.sound
  all_goals cases h

@[simp] theorem terminate_writer (flush notify : Bool) :
    (c.terminate flush notify).1.writer = c.writer := by
  cases hd : c.dead <;> simp [terminate, hd]

@[simp] theorem act_writer (a : Act) : (c.act a).writer = c.writer := by cases a <;> rfl

theorem Books.writerStep (b : c.Books) (h : c.writerStep = some c') : c'.Books := by
  unfold SockChannel.writerStep at h
  split at h
  case h_1 hw =>
    have hun : c.unwritten = c.queue := by simp [unwritten, hw, Writer.batch]
    split at h
    · cases h
      cases hd : c.dead <;>
        exact b.congr (by simp [ledger, hw, hd, Writer.batch, Writer.sent]) fun _ => trivial
    · cases h
      have hwired := b.wired
      have hclean := b.clean
      have htaken := b.taken
      have hall := b.all
      have hcounted := b.counted
      rw [hun] at htaken hall hcounted
      simp only [hw, Writer.batch, Writer.sent] at hwired hclean
      exact {
        ended := b.ended
        counted := by
          simp only [unwritten, Writer.batch, List.append_nil]
          exact hcounted
        emptied := fun _ => rfl
        taken := by simpa [unwritten, Writer.batch] using htaken
        all := fun hd => by simpa [unwritten, Writer.batch] using hall hd
        within := Nat.zero_le _
        wired := by simpa [Writer.batch, Writer.sent] using hwired
        clean := by simpa [Writer.batch, Writer.sent] using hclean
        sound := fun _ => trivial
        upset := b.upset }
  case h_2 hw =>
    split at h <;> cases h
    exact b.congr (by simp [ledger, hw, Writer.batch, Writer.sent]) fun _ => trivial
  case h_3 batch k hw =>
    cases h
    have b' : c.fail.1.Books := b.terminate false true fun _ => rfl
    have hw' : c.fail.1.writer = .failing batch k := by simp [fail, hw]
    have hwired := b'.wired
    have hwithin := b'.within
    simp only [hw', Writer.batch, Writer.sent] at hwired hwithin
    exact {
      ended := b'.ended
      counted := by
        have := b'.counted
        simp only [unwritten, hw', Writer.batch] at this
        exact this
      emptied := b'.emptied
      taken := by simpa [unwritten, hw', Writer.batch] using b'.taken
      all := fun hd => by simpa [unwritten, hw', Writer.batch] using b'.all hd
      within := hwithin
      wired := hwired
      clean := nofun
      sound := nofun
      upset := fun _ => by cases hd : c.dead <;> simp [fail, SockChannel.terminate, hd] }
  case h_4 batch k a todo hw =>
    cases h
    have b' := b.act a
    refine b'.congr (by simp [ledger, hw, Writer.batch, Writer.sent]) fun hf => ?_
    have := b'.sound hf
    rw [act_writer, hw] at this
    exact this
  case h_5 batch k hw =>
    cases h
    refine b.congr (by simp [ledger, hw, Writer.batch, Writer.sent]) fun hf => ?_
    have := b.sound hf
    rw [hw] at this
    exact this.elim
  case h_6 batch k hw =>
    cases h
    have hun : c.unwritten = batch ++ c.queue := by simp [unwritten, hw, Writer.batch]
    have hwired := b.wired
    have hclean := b.clean
    have hsound := b.sound
    have htaken := b.taken
    have hall := b.all
    have hcounted := b.counted
    rw [hun] at htaken hall hcounted
    simp only [hw, Writer.batch, Writer.sent, Writer.Clean] at hwired hclean hsound
    exact {
      ended := b.ended
      counted := by
        simp only [unwritten, Writer.batch, List.nil_append]
        have hd : ({ c with
            queued := if (byteTotal batch : Int) ≤ c.queued then c.queued - byteTotal batch else c.queued
            done := c.done ++ batch
            writer := .checking } : SockChannel).dropped = c.dropped := rfl
        rw [hd, hcounted, byteTotal_append]
        cases hdrop : c.dropped with
        | false => simp
        | true => simp only [if_true]; split <;> omega
      emptied := b.emptied
      taken := by simpa [unwritten, Writer.batch] using htaken
      all := fun hd => by simpa [unwritten, Writer.batch] using hall hd
      within := Nat.zero_le _
      wired := by
        obtain ⟨w, hin, hw'⟩ := hwired
        exact ⟨c.wire, by rw [hw']; exact hin.append (inOrder_take batch k),
          by simp [Writer.batch, Writer.sent]⟩
      clean := fun hf => by
        rw [hclean hf, hsound hf, byteTotal_eq]
        simp [Writer.batch, Writer.sent]
      sound := fun _ => trivial
      upset := b.upset }
  case h_7 hw =>
    cases h
    exact b.congr (by simp [ledger, hw, Writer.batch, Writer.sent]) fun _ => trivial
  all_goals cases h

theorem Books.step (b : c.Books) (t : c.Threads) {l : Label} (h : c.step l = some c') : c'.Books := by
  cases l with
  | send bytes =>
    simp only [SockChannel.step] at h
    split at h <;> cases h
    have b' := b.send bytes
    exact b'.congr rfl b'.sound
  | close graceful =>
    simp only [SockChannel.step] at h
    split at h <;> cases h
    have b' : (c.close graceful).1.Books := b.terminate graceful false nofun
    exact b'.congr rfl b'.sound
  | loop =>
    simp only [SockChannel.step] at h
    split at h <;> cases h
    rename_i a todo _
    have b' := b.act a
    exact b'.congr rfl b'.sound
  | dialed ok =>
    simp only [SockChannel.step] at h
    split at h <;> cases h
    cases ok <;> exact b.congr rfl b.sound
  | reader => exact b.readerStep t h
  | read how =>
    simp only [SockChannel.step] at h
    split at h <;> cases h
    cases how <;> exact b.congr rfl b.sound
  | writer => exact b.writerStep h
  | wrote n =>
    simp only [SockChannel.step] at h
    split at h
    case h_1 batch k hw =>
      split at h <;> cases h
      rename_i hfit
      have hwired := b.wired
      have hclean := b.clean
      simp only [hw, Writer.batch, Writer.sent] at hwired hclean
      have htake : batch.flatten.take k ++ (batch.flatten.drop k).take n = batch.flatten.take (k + n) :=
        List.take_add.symm
      exact {
        ended := b.ended
        counted := by simpa [unwritten, hw, Writer.batch, dropped] using b.counted
        emptied := b.emptied
        taken := by simpa [unwritten, hw, Writer.batch] using b.taken
        all := fun hd => by simpa [unwritten, hw, Writer.batch] using b.all hd
        within := hfit.2.2
        wired := by
          obtain ⟨w, hin, hw'⟩ := hwired
          refine ⟨w, hin, ?_⟩
          simp only [Writer.batch, Writer.sent]
          rw [hw', List.append_assoc, htake]
        clean := fun hf => by
          simp only [Writer.batch, Writer.sent]
          rw [hclean hf, List.append_assoc, htake]
        sound := fun _ => trivial
        upset := b.upset }
    case h_2 => cases h
  | written =>
    simp only [SockChannel.step] at h
    split at h
    case h_1 batch k hw =>
      split at h <;> cases h
      rename_i hk
      exact b.congr (by simp [ledger, hw, Writer.batch, Writer.sent]) fun _ => hk
    case h_2 => cases h
  | writeError =>
    simp only [SockChannel.step] at h
    split at h
    case h_1 batch k hw =>
      cases h
      exact b.congr (by simp [ledger, hw, Writer.batch, Writer.sent]) fun _ => trivial
    case h_2 => cases h

/-! ### Where the goroutines stand -/

/-- What ends a channel, or is sent on it, moves no goroutine. -/
theorem Threads.mono (t : c.Threads) (hconn : c'.conn = c.conn) (hlanded : c'.landed = c.landed)
    (hreader : c'.reader = c.reader) (hwriter : c'.writer = c.writer)
    (hclosed : c.closed = true → c'.closed = true) (hdead : c.dead = true → c'.dead = true)
    (hqueue : c.dead = true → c.queue = [] → c'.queue = []) : c'.Threads where
  started := by rw [hconn, hwriter, hreader]; exact t.started
  landed := by rw [hconn, hlanded]; exact t.landed
  dialing := by rw [hreader, hlanded]; exact t.dialing
  landing := by rw [hreader, hconn, hlanded]; exact t.landing
  late := by rw [hreader]; exact fun hr => hdead (t.late hr)
  spawning := by rw [hreader, hwriter]; exact t.spawning
  reading := by rw [hreader, hconn]; exact t.reading
  unopened := by
    rw [hreader, hconn, hlanded]
    exact fun hc hr => (t.unopened hc hr).imp_right hclosed
  leaving := by
    rw [hwriter]
    intro hw
    obtain ⟨hd, hq⟩ := t.leaving hw
    exact ⟨hdead hd, hqueue hd hq⟩
  left := by rw [hwriter]; exact fun hw => hclosed (t.left hw)

theorem Threads.act (t : c.Threads) (a : Act) : (c.act a).Threads := by
  cases a <;> exact t.mono rfl rfl rfl rfl (by simp [SockChannel.act]) id fun _ => id

theorem Threads.send (t : c.Threads) (bytes : Bytes) : (c.send bytes).1.Threads := by
  cases hd : c.dead with
  | true =>
    simp only [SockChannel.send, hd, if_true]
    exact t
  | false =>
    simp only [SockChannel.send, hd, Bool.false_eq_true, if_false]
    exact t.mono rfl rfl rfl rfl id (by simp [hd]) (by simp [hd])

theorem Threads.terminate (t : c.Threads) (flush notify : Bool) :
    (c.terminate flush notify).1.Threads := by
  cases hd : c.dead with
  | true =>
    rw [terminate_dead flush notify hd]
    exact t.mono rfl rfl rfl rfl id id fun _ => id
  | false =>
    rw [terminate_live flush notify hd]
    exact t.mono rfl rfl rfl rfl id (fun _ => rfl) (by simp [hd])

/-- The reader of an open connection goes on. -/
theorem Threads.goesOn (t : c.Threads) (hconn : c.conn = true) (hs : c.reader ≠ .spawning) (r : Reader)
    (h1 : r ≠ .dialing) (h2 : r ≠ .landed) (h3 : r ≠ .late) (h4 : r ≠ .spawning) :
    ({ c with reader := r } : SockChannel).Threads := by
  have hstarted := t.started
  have hlanded := t.landed hconn
  exact {
    started := by simpa [hconn, hs, h4] using hstarted
    landed := fun _ => hlanded
    dialing := fun h => absurd h h1
    landing := fun h => h.elim (fun h => absurd h h2) fun h => absurd h h3
    late := fun h => absurd h h3
    spawning := fun h => absurd h h4
    reading := fun _ => hconn
    unopened := by simp [hconn]
    leaving := t.leaving
    left := t.left }

/-- The reader works off what its `fail` left. -/
theorem Threads.ends (t : c.Threads) (hr : c.reader = .failing ∨ ∃ todo, c.reader = .ending todo)
    (todo : List Act) : ({ c with reader := .ending todo } : SockChannel).Threads := by
  have hstarted := t.started
  have hs : c.reader ≠ .spawning := by rcases hr with hr | ⟨_, hr⟩ <;> simp [hr]
  exact {
    started := by simpa [hs] using hstarted
    landed := t.landed
    dialing := nofun
    landing := nofun
    late := nofun
    spawning := nofun
    reading := nofun
    unopened := fun hc _ => t.unopened hc hr
    leaving := t.leaving
    left := t.left }

@[simp] theorem terminate_reader (flush notify : Bool) :
    (c.terminate flush notify).1.reader = c.reader := by
  cases hd : c.dead <;> simp [SockChannel.terminate, hd]

@[simp] theorem act_reader (a : Act) : (c.act a).reader = c.reader := by cases a <;> rfl

theorem Threads.readerStep (t : c.Threads) (h : c.readerStep = some c') : c'.Threads := by
  unfold SockChannel.readerStep at h
  split at h
  case h_1 hr =>
    obtain ⟨hconn, hlanded⟩ := t.landing (.inl hr)
    have hw : c.writer = .unstarted := by
      by_contra hne
      have := t.started.2 (.inl hne)
      simp [hconn] at this
    split at h <;> cases h
    · constructor <;> simp_all
    · constructor <;> simp_all
  case h_2 hr =>
    cases h
    obtain ⟨hconn, hlanded⟩ := t.landing (.inr hr)
    have := t.started
    constructor <;> simp_all
  case h_3 hr =>
    cases h
    have := t.started
    have := t.landed
    constructor <;> simp_all
  case h_4 hr =>
    cases h
    exact t.goesOn (t.reading (by simp [hr])) (by simp [hr]) .gate nofun nofun nofun nofun
  case h_5 hr =>
    split at h <;> cases h
    have t' := t.goesOn (t.reading (by simp [hr])) (by simp [hr]) .checking nofun nofun nofun nofun
    exact t'.mono rfl rfl rfl rfl id id fun _ => id
  case h_6 hr =>
    cases h
    have hconn := t.reading (by simp [hr])
    have hne : ∀ r, r = .ending [] ∨ r = .reading → ({ c with reader := r } : SockChannel).Threads := by
      rintro r (rfl | rfl) <;> exact t.goesOn hconn (by simp [hr]) _ nofun nofun nofun nofun
    apply hne
    cases c.dead <;> simp
  case h_7 hr =>
    cases h
    have t' := t.goesOn (t.reading (by simp [hr])) (by simp [hr]) .gate nofun nofun nofun nofun
    exact t'.mono rfl rfl rfl rfl id id fun _ => id
  case h_8 hr =>
    cases h
    have t' : c.fail.1.Threads := t.terminate false true
    have hr' : c.fail.1.reader = .failing := by simp [fail, hr]
    exact t'.ends (.inl hr') c.fail.2
  case h_9 a todo hr =>
    cases h
    exact (t.act a).ends (.inr ⟨a :: todo, by simp [hr]⟩) todo
  all_goals cases h

/-- The writer goes on, and does not leave. -/
theorem Threads.writes (t : c.Threads) (hw : c.writer ≠ .unstarted) (w : Writer)
    (h1 : w ≠ .unstarted) (h2 : w = .closing ∨ w = .exited → c.dead = true ∧ c.queue = [])
    (h3 : w = .exited → c.closed = true) : ({ c with writer := w } : SockChannel).Threads where
  started := by simpa [h1, hw] using t.started
  landed := t.landed
  dialing := t.dialing
  landing := t.landing
  late := t.late
  spawning := fun hr => absurd (t.spawning hr) hw
  reading := t.reading
  unopened := t.unopened
  leaving := h2
  left := h3

theorem Threads.writerStep (t : c.Threads) (h : c.writerStep = some c') : c'.Threads := by
  unfold SockChannel.writerStep at h
  split at h
  case h_1 hw =>
    split at h <;> cases h
    case isTrue hq =>
      cases hd : c.dead with
      | false =>
        have t' := t.writes (by simp [hw]) .waiting nofun nofun nofun
        exact t'.mono rfl rfl rfl rfl id (by simp [hd]) fun _ => id
      | true =>
        have t' := t.writes (by simp [hw]) .closing nofun (fun _ => ⟨hd, hq⟩) nofun
        exact t'.mono rfl rfl rfl rfl id (by simp [hd]) fun _ => id
    case isFalse hq =>
      have t' := t.writes (by simp [hw]) (.writing c.queue 0) nofun nofun nofun
      exact t'.mono rfl rfl rfl rfl id id fun _ _ => rfl
  case h_2 hw =>
    split at h <;> cases h
    have t' := t.writes (by simp [hw]) .checking nofun nofun nofun
    exact t'.mono rfl rfl rfl rfl id id fun _ => id
  case h_3 batch k hw =>
    cases h
    have t' : c.fail.1.Threads := t.terminate false true
    have t'' := t'.writes (by simp [fail, hw]) (.ending batch k c.fail.2) nofun nofun nofun
    exact t''.mono rfl rfl rfl rfl id id fun _ => id
  case h_4 batch k a todo hw =>
    cases h
    exact (t.act a).writes (by simp [hw]) _ nofun nofun nofun
  case h_5 batch k hw =>
    cases h
    exact t.writes (by simp [hw]) _ nofun nofun nofun
  case h_6 batch k hw =>
    cases h
    have t' := t.writes (by simp [hw]) .checking nofun nofun nofun
    exact t'.mono rfl rfl rfl rfl id id fun _ => id
  case h_7 hw =>
    cases h
    have hleft := t.leaving (.inl hw)
    have t' : ({ c with closed := true } : SockChannel).Threads :=
      t.mono rfl rfl rfl rfl (fun _ => rfl) id fun _ => id
    exact t'.writes (by simp [hw]) .exited nofun (fun _ => hleft) fun _ => rfl
  all_goals cases h

theorem Threads.step (t : c.Threads) {l : Label} (h : c.step l = some c') : c'.Threads := by
  cases l with
  | send bytes =>
    simp only [SockChannel.step] at h
    split at h <;> cases h
    exact (t.send bytes).mono rfl rfl rfl rfl id id fun _ => id
  | close graceful =>
    simp only [SockChannel.step] at h
    split at h <;> cases h
    have t' : (c.close graceful).1.Threads := t.terminate graceful false
    exact t'.mono rfl rfl rfl rfl id id fun _ => id
  | loop =>
    simp only [SockChannel.step] at h
    split at h <;> cases h
    rename_i a todo _
    exact (t.act a).mono rfl rfl rfl rfl id id fun _ => id
  | dialed ok =>
    simp only [SockChannel.step] at h
    split at h <;> cases h
    rename_i hr
    have hlanded := t.dialing hr
    have hstarted := t.started
    have hconn : c.conn = false := by
      by_contra hne
      have := t.landed (by simpa using hne)
      simp [hlanded] at this
    cases ok <;> constructor <;> simp_all [t.leaving]
  | reader => exact t.readerStep h
  | read how =>
    simp only [SockChannel.step] at h
    split at h <;> cases h
    rename_i hr
    have hconn := t.reading (by simp [hr])
    cases how <;> exact t.goesOn hconn (by simp [hr]) _ nofun nofun nofun nofun
  | writer => exact t.writerStep h
  | wrote n =>
    simp only [SockChannel.step] at h
    split at h
    case h_1 batch k hw =>
      split at h <;> cases h
      have t' := t.writes (by simp [hw]) (.writing batch (k + n)) nofun nofun nofun
      exact t'.mono rfl rfl rfl rfl id id fun _ => id
    case h_2 => cases h
  | written =>
    simp only [SockChannel.step] at h
    split at h
    case h_1 batch k hw =>
      split at h <;> cases h
      exact t.writes (by simp [hw]) _ nofun nofun nofun
    case h_2 => cases h
  | writeError =>
    simp only [SockChannel.step] at h
    split at h
    case h_1 batch k hw =>
      cases h
      have t' := t.writes (by simp [hw]) (.failing batch k) nofun nofun nofun
      exact t'.mono rfl rfl rfl rfl id id fun _ => id
    case h_2 => cases h

/-! ### No wake-up is lost -/

theorem Woken.mono (w : c.Woken) (hwriter : c'.writer = .waiting → c.writer = .waiting)
    (hneed : c'.queue ≠ [] ∨ c'.dead = true → c.queue ≠ [] ∨ c.dead = true)
    (hwake : c.wake = true → c'.wake = true)
    (htodo : Act.signal ∈ c.todo → c'.wake = true ∨ Act.signal ∈ c'.todo) : c'.Woken :=
  fun hw hn => (w (hwriter hw) (hneed hn)).elim (fun h => .inl (hwake h)) htodo

theorem Woken.owed (h : Act.signal ∈ c.todo) : c.Woken := fun _ _ => .inr h

theorem act_signal {a : Act} {rest : List Act} (h : Act.signal ∈ a :: rest) :
    (c.act a).wake = true ∨ Act.signal ∈ rest := by
  cases a <;> simp_all [SockChannel.act]

theorem act_wake (a : Act) (h : c.wake = true) : (c.act a).wake = true := by
  cases a <;> simp [SockChannel.act, h]

/-- What a section that is through leaves to do wakes the writer, if there was need. -/
theorem terminate_signal (flush notify : Bool) (hd : c.dead = false) :
    Act.signal ∈ (c.terminate flush notify).2 := by
  rw [terminate_live flush notify hd]
  simp

@[simp] theorem terminate_loop (flush notify : Bool) :
    (c.terminate flush notify).1.loop = c.loop := by
  cases hd : c.dead <;> simp [SockChannel.terminate, hd]

@[simp] theorem terminate_wake (flush notify : Bool) :
    (c.terminate flush notify).1.wake = c.wake := by
  cases hd : c.dead <;> simp [SockChannel.terminate, hd]

@[simp] theorem act_loop (a : Act) : (c.act a).loop = c.loop := by cases a <;> rfl

@[simp] theorem act_queue (a : Act) : (c.act a).queue = c.queue := by cases a <;> rfl

@[simp] theorem act_dead (a : Act) : (c.act a).dead = c.dead := by cases a <;> rfl

theorem Woken.readerStep (w : c.Woken) (h : c.readerStep = some c') : c'.Woken := by
  unfold SockChannel.readerStep at h
  split at h
  case h_3 hr =>
    cases h
    exact nofun
  case h_8 hr =>
    cases h
    cases hd : c.dead with
    | true =>
      refine w.mono ?_ (fun _ => .inr hd) ?_ ?_ <;>
        simp +contextual [fail, terminate_dead _ _ hd, todo, hr, Reader.todo]
    | false => exact Woken.owed (by simp [fail, todo, Reader.todo, terminate_signal _ _ hd])
  case h_9 a rest hr =>
    cases h
    refine w.mono (by simp) (by simp) (act_wake a) fun hs => ?_
    have hs' : Act.signal ∈ c.loop ∨ Act.signal ∈ a :: rest ∨ Act.signal ∈ c.writer.todo := by
      simpa [todo, hr, Reader.todo, or_assoc] using hs
    rcases hs' with hs' | hs' | hs'
    · exact .inr (by simp [todo, hs'])
    · exact (act_signal hs').imp_right fun hs' => by simp [todo, Reader.todo, hs']
    · exact .inr (by simp [todo, hs'])
  case h_1 hr =>
    split at h <;> cases h <;> refine w.mono ?_ ?_ ?_ ?_ <;>
      simp +contextual [todo, hr, Reader.todo]
  case h_5 hr =>
    split at h <;> cases h
    refine w.mono ?_ ?_ ?_ ?_ <;> simp +contextual [todo, hr, Reader.todo]
  case h_6 hr =>
    cases h
    refine w.mono id id id fun hs => .inr ?_
    have hs' : Act.signal ∈ c.loop ∨ Act.signal ∈ c.writer.todo := by
      simpa [todo, hr, Reader.todo] using hs
    rcases hs' with hs' | hs' <;> simp [todo, hs']
  all_goals
    rename_i hr
    cases h
  all_goals refine w.mono ?_ ?_ ?_ ?_ <;> simp +contextual [todo, hr, Reader.todo]

theorem Woken.writerStep (h : c.writerStep = some c') : c'.Woken := by
  unfold SockChannel.writerStep at h
  split at h
  case h_1 hw =>
    split at h <;> cases h
    · rename_i hq
      intro _ hn
      simp only [hq, ne_eq, not_true_eq_false, false_or] at hn
      simp_all
    · exact nofun
  case h_2 hw =>
    split at h <;> cases h
    exact nofun
  all_goals cases h
  all_goals exact nofun

theorem Woken.step (w : c.Woken) {l : Label} (h : c.step l = some c') : c'.Woken := by
  cases l with
  | send bytes =>
    simp only [SockChannel.step] at h
    split at h <;> cases h
    rename_i hl
    cases hd : c.dead with
    | true =>
      refine w.mono ?_ (fun _ => .inr hd) ?_ ?_ <;>
        simp +contextual [SockChannel.send, hd, todo, hl]
    | false => exact Woken.owed (by simp [SockChannel.send, hd, todo])
  | close graceful =>
    simp only [SockChannel.step] at h
    split at h <;> cases h
    rename_i hl
    cases hd : c.dead with
    | true =>
      refine w.mono ?_ (fun _ => .inr hd) ?_ ?_ <;>
        simp +contextual [close, terminate_dead _ _ hd, todo, hl]
    | false =>
      exact Woken.owed (by simp [close, todo, terminate_signal graceful false hd])
  | loop =>
    simp only [SockChannel.step] at h
    split at h <;> cases h
    rename_i a rest hl
    refine w.mono (by simp) (by simp) (act_wake a) fun hs => ?_
    simp only [todo, hl, List.append_assoc, List.cons_append] at hs ⊢
    simpa using act_signal (c := c) hs
  | dialed ok =>
    simp only [SockChannel.step] at h
    split at h <;> cases h
    rename_i hr
    cases ok <;> refine w.mono ?_ ?_ ?_ ?_ <;> simp +contextual [todo, hr, Reader.todo]
  | reader => exact w.readerStep h
  | read how =>
    simp only [SockChannel.step] at h
    split at h <;> cases h
    rename_i hr
    cases how <;> refine w.mono ?_ ?_ ?_ ?_ <;> simp +contextual [todo, hr, Reader.todo]
  | writer => exact Woken.writerStep h
  | wrote n =>
    simp only [SockChannel.step] at h
    split at h
    case h_1 batch k hw => split at h <;> cases h; exact nofun
    case h_2 => cases h
  | written =>
    simp only [SockChannel.step] at h
    split at h
    case h_1 batch k hw => split at h <;> cases h; exact nofun
    case h_2 => cases h
  | writeError =>
    simp only [SockChannel.step] at h
    split at h <;> cases h
    exact nofun

/-! ### The one notice -/

theorem failed_append {e : End} (hne : c.ends ≠ []) :
    ({ c with ends := c.ends ++ [e] } : SockChannel).failed = c.failed := by
  obtain ⟨e', es, hes⟩ := List.exists_cons_of_ne_nil hne
  simp [failed, hes]

theorem act_notified (a : Act) (rest : List Act) :
    (c.act a).notified + rest.count .onClose = c.notified + (a :: rest).count .onClose := by
  cases a <;> simp [SockChannel.act]
  omega

@[simp] theorem act_failed (a : Act) : (c.act a).failed = c.failed := by cases a <;> rfl

theorem Notices.congr (n : c.Notices)
    (h : c'.notified + c'.todo.count .onClose = c.notified + c.todo.count .onClose)
    (hf : c'.failed = c.failed) : c'.Notices := by
  unfold Notices at n ⊢
  rw [h, hf, n]

/-- A section leaves `onClose` to be run if it is the first and a failure. -/
theorem terminate_notices (flush notify : Bool) (hended : c.dead = true ↔ c.ends ≠ [])
    (n : c.Notices) :
    (c.terminate flush notify).1.notified +
      ((c.terminate flush notify).2.count .onClose + c.todo.count .onClose) =
        (c.terminate flush notify).1.failed.toNat := by
  unfold Notices at n
  cases hd : c.dead with
  | true =>
    rw [terminate_dead flush notify hd, failed_append (hended.1 hd)]
    simpa using n
  | false =>
    have hnil : c.ends = [] := by
      by_contra hne
      have := hended.2 hne
      simp [hd] at this
    have hnone : c.failed = false := by simp [failed, hnil]
    have hz : c.notified = 0 ∧ c.todo.count .onClose = 0 := by simpa [hnone] using n
    have h1 : (if c.dials then [Act.cancelDial] else []).count .onClose = 0 := by
      cases c.dials <;> rfl
    have h2 : (if c.conn then [if flush then Act.setWriteDeadline else .closeConn] else []).count
        .onClose = 0 := by
      cases c.conn <;> cases flush <;> rfl
    rw [terminate_live flush notify hd]
    simp only [List.count_append, h1, h2, hz.1, hz.2, failed, hnil, List.nil_append]
    cases notify <;> rfl

theorem todo_count (c : SockChannel) : c.todo.count .onClose =
    c.loop.count .onClose + c.reader.todo.count .onClose + c.writer.todo.count .onClose := by
  simp [todo, add_assoc]

theorem Notices.readerStep (n : c.Notices) (hended : c.dead = true ↔ c.ends ≠ [])
    (t : c.Threads) (h : c.readerStep = some c') : c'.Notices := by
  unfold SockChannel.readerStep at h
  split at h
  case h_3 hr =>
    cases h
    refine n.congr ?_ rfl
    simp [todo_count, hr, t.spawning hr, Reader.todo, Writer.todo]
  case h_8 hr =>
    cases h
    have := terminate_notices false true hended n
    simp only [todo_count, hr, Reader.todo, List.count_nil] at this
    refine Eq.trans ?_ this
    simp only [fail, todo_count, terminate_loop, terminate_writer, Reader.todo]
    omega
  case h_9 a rest hr =>
    cases h
    have := act_notified (c := c) a rest
    refine n.congr ?_ (act_failed a)
    simp only [todo_count, hr, act_loop, act_writer, Reader.todo]
    omega
  case h_1 hr =>
    split at h <;> cases h <;> exact n.congr (by simp [todo_count, hr, Reader.todo]) rfl
  case h_5 hr =>
    split at h <;> cases h
    exact n.congr (by simp [todo_count, hr, Reader.todo]) rfl
  case h_6 hr =>
    cases h
    refine n.congr ?_ rfl
    cases hd : c.dead <;> simp [todo_count, hr, Reader.todo]
  all_goals
    rename_i hr
    cases h
  all_goals exact n.congr (by simp [todo_count, hr, Reader.todo]) rfl

theorem Notices.writerStep (n : c.Notices) (hended : c.dead = true ↔ c.ends ≠ [])
    (h : c.writerStep = some c') : c'.Notices := by
  unfold SockChannel.writerStep at h
  split at h
  case h_1 hw =>
    split at h <;> cases h
    · refine n.congr ?_ rfl
      cases hd : c.dead <;> simp [todo_count, hw, Writer.todo]
    · exact n.congr (by simp [todo_count, hw, Writer.todo]) rfl
  case h_2 hw =>
    split at h <;> cases h
    exact n.congr (by simp [todo_count, hw, Writer.todo]) rfl
  case h_3 batch k hw =>
    cases h
    have := terminate_notices false true hended n
    simp only [todo_count, hw, Writer.todo, List.count_nil] at this
    refine Eq.trans ?_ this
    simp only [fail, todo_count, terminate_loop, terminate_reader, Writer.todo]
    omega
  case h_4 batch k a rest hw =>
    cases h
    have := act_notified (c := c) a rest
    refine n.congr ?_ (act_failed a)
    simp only [todo_count, hw, act_loop, act_reader, Writer.todo]
    omega
  case h_5 batch k hw =>
    cases h
    exact n.congr (by simp [todo_count, hw, Writer.todo]) rfl
  case h_6 batch k hw =>
    cases h
    exact n.congr (by simp [todo_count, hw, Writer.todo]) rfl
  case h_7 hw =>
    cases h
    exact n.congr (by simp [todo_count, hw, Writer.todo]) rfl
  all_goals cases h

theorem Notices.step (n : c.Notices) (hended : c.dead = true ↔ c.ends ≠ [])
    (t : c.Threads) {l : Label} (h : c.step l = some c') : c'.Notices := by
  cases l with
  | send bytes =>
    simp only [SockChannel.step] at h
    split at h <;> cases h
    rename_i hl
    cases hd : c.dead with
    | true => exact n.congr (by simp [SockChannel.send, hd, todo_count, hl]) (by simp [SockChannel.send, hd, failed])
    | false => exact n.congr (by simp [SockChannel.send, hd, todo_count, hl]) (by simp [SockChannel.send, hd, failed])
  | close graceful =>
    simp only [SockChannel.step] at h
    split at h <;> cases h
    rename_i hl
    have := terminate_notices graceful false hended n
    rw [todo_count, hl, List.count_nil] at this
    refine Eq.trans ?_ this
    simp only [close, todo_count, terminate_reader, terminate_writer]
    omega
  | loop =>
    simp only [SockChannel.step] at h
    split at h <;> cases h
    rename_i a rest hl
    have := act_notified (c := c) a rest
    refine n.congr ?_ (act_failed a)
    simp only [todo_count, hl, act_reader, act_writer]
    omega
  | dialed ok =>
    simp only [SockChannel.step] at h
    split at h <;> cases h
    rename_i hr
    cases ok <;> exact n.congr (by simp [todo_count, hr, Reader.todo]) rfl
  | reader => exact n.readerStep hended t h
  | read how =>
    simp only [SockChannel.step] at h
    split at h <;> cases h
    rename_i hr
    cases how <;> exact n.congr (by simp [todo_count, hr, Reader.todo]) rfl
  | writer => exact n.writerStep hended h
  | wrote n' =>
    simp only [SockChannel.step] at h
    split at h
    case h_1 batch k hw =>
      split at h <;> cases h
      exact n.congr (by simp [todo_count, hw, Writer.todo]) rfl
    case h_2 => cases h
  | written =>
    simp only [SockChannel.step] at h
    split at h
    case h_1 batch k hw =>
      split at h <;> cases h
      exact n.congr (by simp [todo_count, hw, Writer.todo]) rfl
    case h_2 => cases h
  | writeError =>
    simp only [SockChannel.step] at h
    split at h
    case h_1 batch k hw =>
      cases h
      exact n.congr (by simp [todo_count, hw, Writer.todo]) rfl
    case h_2 => cases h

end SockChannel

end Native

end SeedTransport
