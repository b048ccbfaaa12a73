import SeedTransport.Framing.Parsing

set_option autoImplicit false

namespace SeedTransport.Framing

/-! The messages of a WebSocket stream, as RFC 6455 reassembles them from its frames, and that the
framer delivers them. -/

open Ws (SCRATCH_SIZE masked masking maskedHead)
open Incremental (Result)

structure Frame where
  fin : Bool
  opcode : Nat
  payload : Bytes

/-- Control frames have an opcode from 8 on. -/
def Frame.data (f : Frame) : Bool := decide (f.opcode < 8)

/-- The payloads of some frames, one after another. -/
def joined (fs : List Frame) : Bytes := (fs.map Frame.payload).flatten

/-- The fragments of the message still in progress: the data frames since the last that was final. -/
def pending (past : List Frame) : List Frame := (past.filter Frame.data).rtakeWhile fun f => !f.fin

/-- What a frame gives rise to: a pong, or the binary message it completes. -/
def replies (past : List Frame) (f : Frame) : List Event :=
  if f.opcode = WS_OP_PING then [.pong f.payload]
  else if f.data ∧ f.fin ∧ (pending past ++ [f]).head?.map Frame.opcode = some WS_OP_BINARY then
    [.message (joined (pending past ++ [f]))]
  else []

def eventsFrom (past : List Frame) : List Frame → List Event
  | [] => []
  | f :: fs => replies past f ++ eventsFrom (past ++ [f]) fs

/-- All that some frames give rise to. -/
def events (fs : List Frame) : List Event := eventsFrom [] fs

def Event.isMessage : Event → Bool
  | .message _ => true
  | _ => false

variable (S : Setting)

/-- The cap in force past some frames. -/
def capAt (past : List Frame) : Nat :=
  if ∃ k, k < (events past).countP Event.isMessage ∧ S.raises k = true then S.maxFrameBytes
  else MAX_HANDSHAKE_FRAME_BYTES

/-- A frame may follow: a continuation continues a message, which stays within the cap; a message
starts once the last is complete; a close ends the stream. -/
structure Continues (past : List Frame) (f : Frame) : Prop where
  continuation : f.opcode = WS_OP_CONT → pending past ≠ [] ∧ (joined (pending past ++ [f])).length ≤ capAt S past
  start : f.data = true → f.opcode ≠ WS_OP_CONT → pending past = []
  close : f.opcode ≠ WS_OP_CLOSE

/-- The first `n` bytes are a whole frame. -/
def Leads (past : List Frame) (p : Bytes) (f : Frame) (n : Nat) : Prop :=
  ∃ head len, rfcHead p (!S.client) (capAt S past) = .header f.fin f.opcode head len ∧ n = head + len ∧
    n ≤ p.length ∧ f.payload = if S.client then (p.drop head).take len
      else masked ((p.drop (head - 4)).take 4) ((p.drop head).take len)

/-- A frame is still on its way. -/
def Waits (past : List Frame) (p : Bytes) : Prop :=
  rfcHead p (!S.client) (capAt S past) = .null ∨ ∃ fin opcode head len,
    rfcHead p (!S.client) (capAt S past) = .header fin opcode head len ∧ p.length < head + len

/-- A masked frame fits the module's scratch behind the operation's byte. -/
def Unmasks (n : Nat) : Prop := S.client = true ∨ n + 1 ≤ SCRATCH_SIZE

/-- The frames of a stream past some others, what is left of it, and whether it is not refused. -/
inductive Reads : List Frame → Bytes → List Frame → Bytes → Bool → Prop
  | waits {past p} : Waits S past p → Reads past p [] p true
  | forbidden {past p} : rfcHead p (!S.client) (capAt S past) = .refused → Reads past p [] p false
  | ends {past p f n} : Leads S past p f n → ¬ (Unmasks S n ∧ Continues S past f) →
      Reads past p [] (p.drop n) false
  | frame {past p f n fs rest ok} : Leads S past p f n → Unmasks S n → Continues S past f →
      Reads (past ++ [f]) (p.drop n) fs rest ok → Reads past p (f :: fs) rest ok

/-- What comes of a stream: the HTTP head, which ends within its ceiling and is accepted, then
frames. -/
inductive Reassembles (stream : Bytes) : List Event → Bool → Bytes → Prop
  | headless : headEnd stream = none → Reassembles stream [] (decide (stream.length ≤ MAX_WS_HANDSHAKE)) stream
  | refused {n} : headEnd stream = some n → S.upgrade (stream.take (n - 4)) = none →
      Reassembles stream [] false stream
  | upgraded {n put fs rest ok} : headEnd stream = some n → S.upgrade (stream.take (n - 4)) = some put →
      Reads S [] (stream.drop n) fs rest ok → Reassembles stream (put.map Event.answer ++ events fs) ok rest

variable {S}

theorem eventsFrom_append (past fs gs : List Frame) :
    eventsFrom past (fs ++ gs) = eventsFrom past fs ++ eventsFrom (past ++ fs) gs := by
  induction fs generalizing past with
  | nil => simp [eventsFrom]
  | cons f fs ih => simp [eventsFrom, ih]

theorem events_snoc (past : List Frame) (f : Frame) : events (past ++ [f]) = events past ++ replies past f := by
  unfold events
  rw [eventsFrom_append]
  simp [eventsFrom]

/-! ### The stream has one reading -/

theorem Leads.unique {past : List Frame} {p : Bytes} {f g : Frame} {n m : Nat} (h : Leads S past p f n)
    (h' : Leads S past p g m) : f = g ∧ n = m := by
  obtain ⟨head, len, hh, rfl, -, hp⟩ := h
  obtain ⟨head', len', hh', rfl, -, hp'⟩ := h'
  rw [hh] at hh'
  simp only [Head.header.injEq] at hh'
  obtain ⟨hfin, hop, rfl, rfl⟩ := hh'
  obtain ⟨fin, opcode, payload⟩ := f
  obtain ⟨fin', opcode', payload'⟩ := g
  dsimp only at hfin hop hp hp'
  subst hfin hop hp hp'
  exact ⟨rfl, rfl⟩

theorem Leads.whole {past : List Frame} {p : Bytes} {f : Frame} {n : Nat} (h : Leads S past p f n) :
    ¬ Waits S past p ∧ rfcHead p (!S.client) (capAt S past) ≠ .refused := by
  obtain ⟨head, len, hh, rfl, hn, -⟩ := h
  unfold Waits
  rw [hh]
  refine ⟨?_, nofun⟩
  rintro (hnull | ⟨fin, opcode, head', len', he, hshort⟩)
  · cases hnull
  · cases he
    omega

theorem Waits.not_refused {past : List Frame} {p : Bytes} (h : Waits S past p) :
    rfcHead p (!S.client) (capAt S past) ≠ .refused := by
  rcases h with hnull | ⟨fin, opcode, head, len, he, -⟩
  · rw [hnull]
    nofun
  · rw [he]
    nofun

theorem Reads.unique {past : List Frame} {p : Bytes} {fs gs : List Frame} {r r' : Bytes} {ok ok' : Bool}
    (h : Reads S past p fs r ok) (h' : Reads S past p gs r' ok') : fs = gs ∧ r = r' ∧ ok = ok' := by
  induction h generalizing gs r' ok' with
  | waits hw =>
    cases h' with
    | waits => exact ⟨rfl, rfl, rfl⟩
    | forbidden hf => exact absurd hf hw.not_refused
    | ends hl | frame hl => exact absurd hw hl.whole.1
  | forbidden hf =>
    cases h' with
    | waits hw => exact absurd hf hw.not_refused
    | forbidden => exact ⟨rfl, rfl, rfl⟩
    | ends hl | frame hl => exact absurd hf hl.whole.2
  | ends hl hno =>
    cases h' with
    | waits hw => exact absurd hw hl.whole.1
    | forbidden hf => exact absurd hf hl.whole.2
    | ends hl' =>
      obtain ⟨-, rfl⟩ := hl.unique hl'
      exact ⟨rfl, rfl, rfl⟩
    | frame hl' hu hc =>
      obtain ⟨rfl, rfl⟩ := hl.unique hl'
      exact absurd ⟨hu, hc⟩ hno
  | frame hl hu hc _ ih =>
    cases h' with
    | waits hw => exact absurd hw hl.whole.1
    | forbidden hf => exact absurd hf hl.whole.2
    | ends hl' hno =>
      obtain ⟨rfl, rfl⟩ := hl.unique hl'
      exact absurd ⟨hu, hc⟩ hno
    | frame hl' _ _ hrest =>
      obtain ⟨rfl, rfl⟩ := hl.unique hl'
      obtain ⟨rfl, rfl, rfl⟩ := ih hrest
      exact ⟨rfl, rfl, rfl⟩

theorem Reassembles.unique {stream : Bytes} {done done' : List Event} {r r' : Bytes} {ok ok' : Bool}
    (h : Reassembles S stream done ok r) (h' : Reassembles S stream done' ok' r') :
    done = done' ∧ ok = ok' ∧ r = r' := by
  cases h with
  | headless hn =>
    cases h' with
    | headless => exact ⟨rfl, rfl, rfl⟩
    | refused hs | upgraded hs => rw [hn] at hs; cases hs
  | refused hs hu =>
    cases h' with
    | headless hn => rw [hn] at hs; cases hs
    | refused => exact ⟨rfl, rfl, rfl⟩
    | upgraded hs' hu' =>
      obtain rfl := Option.some.inj (hs.symm.trans hs')
      rw [hu] at hu'
      cases hu'
  | upgraded hs hu hreads =>
    cases h' with
    | headless hn => rw [hn] at hs; cases hs
    | refused hs' hu' =>
      obtain rfl := Option.some.inj (hs.symm.trans hs')
      rw [hu] at hu'
      cases hu'
    | upgraded hs' hu' hreads' =>
      obtain rfl := Option.some.inj (hs.symm.trans hs')
      obtain rfl := Option.some.inj (hu.symm.trans hu')
      obtain ⟨rfl, rfl, rfl⟩ := hreads.unique hreads'
      exact ⟨rfl, rfl, rfl⟩

/-! ### The framer's state, from the frames past -/

theorem pending_snoc (past : List Frame) (f : Frame) : pending (past ++ [f]) =
    if f.data = true then (if f.fin = true then [] else pending past ++ [f]) else pending past := by
  unfold pending
  rw [List.filter_append, List.filter_singleton]
  cases hd : f.data with
  | false => simp
  | true =>
    rw [cond_true, List.rtakeWhile_concat]
    cases f.fin <;> simp

theorem pending_data {past : List Frame} {f : Frame} (h : f ∈ pending past) : f.opcode < 8 ∧ f.fin = false := by
  unfold pending at h
  have hmem := (List.rtakeWhile_suffix _ _).subset h
  have hfin := List.mem_rtakeWhile_imp h
  exact ⟨of_decide_eq_true (List.mem_filter.mp hmem).2, by simpa using hfin⟩

variable (S) in
/-- The state once the head is read and some frames are past. -/
def Progress.past (put : List Event) (past : List Frame) : Progress where
  opened := true
  cap := capAt S past
  fragOpcode := (pending past).head?.map Frame.opcode
  frags := (pending past).map Frame.payload
  fragBytes := (joined (pending past)).length
  handed := (events past).countP Event.isMessage
  done := put ++ events past

/-- A frame that completes a message moves the cap as handling the message does; others leave it. -/
theorem capAt_snoc (past : List Frame) (f : Frame) : capAt S (past ++ [f]) =
    if (replies past f).countP Event.isMessage = 1 then
      S.handled ((events past).countP Event.isMessage) (capAt S past) else capAt S past := by
  have hone : (replies past f).countP Event.isMessage = 0 ∨ (replies past f).countP Event.isMessage = 1 := by
    unfold replies
    split_ifs
    · exact Or.inl rfl
    · exact Or.inr rfl
    · exact Or.inl rfl
  unfold capAt
  rw [events_snoc, List.countP_append]
  generalize (events past).countP Event.isMessage = k
  rcases hone with h | h
  · rw [h]
    rfl
  · rw [h, if_pos rfl]
    unfold Setting.handled LengthFramer.handled
    cases hr : S.raises k with
    | true => rw [if_pos ⟨k, Nat.lt_succ_self k, hr⟩, if_pos rfl]
    | false =>
      have hiff : (∃ j, j < k + 1 ∧ S.raises j = true) ↔ ∃ j, j < k ∧ S.raises j = true := by
        refine exists_congr fun j => ⟨fun ⟨hj, hj'⟩ => ⟨?_, hj'⟩, fun ⟨hj, hj'⟩ => ⟨by omega, hj'⟩⟩
        rcases Nat.lt_succ_iff_lt_or_eq.mp hj with hlt | rfl
        · exact hlt
        · rw [hr] at hj'
          cases hj'
      simp only [hiff, Bool.false_eq_true, if_false]

/-- What a state becomes with a frame, by the parts of it that change. -/
theorem Progress.past_snoc (put : List Event) (past : List Frame) (f : Frame) :
    Progress.past S put (past ++ [f]) = { Progress.past S put past with
      cap := if (replies past f).countP Event.isMessage = 1 then
        S.handled ((events past).countP Event.isMessage) (capAt S past) else capAt S past
      fragOpcode := (pending (past ++ [f])).head?.map Frame.opcode
      frags := (pending (past ++ [f])).map Frame.payload
      fragBytes := (joined (pending (past ++ [f]))).length
      handed := (events past).countP Event.isMessage + (replies past f).countP Event.isMessage
      done := put ++ events past ++ replies past f } := by
  unfold Progress.past
  rw [capAt_snoc, events_snoc, List.countP_append, List.append_assoc]

/-- What a header admits: the opcodes of RFC 6455, and no fragmented control frame. -/
def Frame.Known (f : Frame) : Prop := f.opcode ∈ [0, 1, 2, 8, 9, 10] ∧ (8 ≤ f.opcode → f.fin = true)

/-- The framer takes a frame as the past allows. -/
def Moves (S : Setting) (put : List Event) (past : List Frame) (f : Frame) : Prop :=
  (Continues S past f → handleFrame S (Progress.past S put past) f.fin f.opcode f.payload =
    (Progress.past S put (past ++ [f]), true)) ∧
  (¬ Continues S past f → (handleFrame S (Progress.past S put past) f.fin f.opcode f.payload).2 = false ∧
    (handleFrame S (Progress.past S put past) f.fin f.opcode f.payload).1.done = put ++ events past)

theorem joined_snoc (fs : List Frame) (f : Frame) : joined (fs ++ [f]) = joined fs ++ f.payload := by
  simp [joined]

theorem moves_continuation (put : List Event) (past : List Frame) (fin : Bool) (payload : Bytes) :
    Moves S put past ⟨fin, WS_OP_CONT, payload⟩ := by
  have hsnoc := pending_snoc past ⟨fin, WS_OP_CONT, payload⟩
  have hcont : Continues S past ⟨fin, WS_OP_CONT, payload⟩ ↔ pending past ≠ [] ∧
      (joined (pending past)).length + payload.length ≤ capAt S past := by
    rw [← List.length_append, ← joined_snoc (pending past) ⟨fin, WS_OP_CONT, payload⟩]
    exact ⟨fun h => h.continuation rfl, fun h => ⟨fun _ => h, fun _ hn => absurd rfl hn, show WS_OP_CONT ≠ WS_OP_CLOSE by decide⟩⟩
  have hdata : (⟨fin, WS_OP_CONT, payload⟩ : Frame).data = true := rfl
  rw [if_pos hdata] at hsnoc
  unfold Moves
  rw [hcont, Progress.past_snoc, hsnoc]
  cases hp : pending past with
  | nil => simp [handleFrame, Progress.past, hp]
  | cons g gs =>
    have hg : g.opcode < 8 := (pending_data (hp ▸ List.mem_cons_self)).1
    have hping : g.opcode ≠ WS_OP_PING := Nat.ne_of_lt (Nat.lt_succ_of_lt hg)
    have hclose : g.opcode ≠ WS_OP_CLOSE := Nat.ne_of_lt hg
    by_cases hle : (joined (g :: gs)).length + payload.length ≤ capAt S past
    · have hroom : ¬ (joined (g :: gs)).length + payload.length > capAt S past := Nat.not_lt.mpr hle
      cases fin with
      | false =>
        have hrep : replies past ⟨false, WS_OP_CONT, payload⟩ = [] := by simp [replies, WS_OP_PING, WS_OP_CONT]
        have hlen := congrArg List.length (joined_snoc (g :: gs) ⟨false, WS_OP_CONT, payload⟩)
        rw [List.length_append, List.cons_append] at hlen
        simp [handleFrame, Progress.past, hp, hle, hroom, hrep, hlen]
      | true =>
        have hnil : joined [] = [] := rfl
        have hwhole : g.payload ++ ((gs.map Frame.payload).flatten ++ payload) = joined (g :: gs) ++ payload := by
          simp [joined]
        by_cases hbin : g.opcode = WS_OP_BINARY
        · have hrep : replies past ⟨true, WS_OP_CONT, payload⟩ = [.message (joined (g :: gs) ++ payload)] := by
            simp [replies, WS_OP_PING, WS_OP_CONT, Frame.data, hp, hbin, joined]
          simp [handleFrame, Progress.past, hp, hle, hroom, hrep, dispatch, hbin, hnil, hwhole, Event.isMessage]
        · have hrep : replies past ⟨true, WS_OP_CONT, payload⟩ = [] := by
            simp [replies, WS_OP_PING, WS_OP_CONT, hp, hbin]
          simp [handleFrame, Progress.past, hp, hle, hroom, hrep, dispatch, hbin, hping, hclose, hnil]
    · have hover : (joined (g :: gs)).length + payload.length > capAt S past := Nat.lt_of_not_le hle
      simp [handleFrame, Progress.past, hp, hle, hover]

theorem moves_start (put : List Event) (past : List Frame) (fin : Bool) {opcode : Nat} (payload : Bytes)
    (hop : opcode = 1 ∨ opcode = WS_OP_BINARY) : Moves S put past ⟨fin, opcode, payload⟩ := by
  have hsnoc := pending_snoc past ⟨fin, opcode, payload⟩
  have hlow : opcode < 8 := by rcases hop with rfl | rfl <;> decide
  have hcont : opcode ≠ WS_OP_CONT := by rcases hop with rfl | rfl <;> decide
  have hping : opcode ≠ WS_OP_PING := by rcases hop with rfl | rfl <;> decide
  have hclose : opcode ≠ WS_OP_CLOSE := by rcases hop with rfl | rfl <;> decide
  have hdata : (⟨fin, opcode, payload⟩ : Frame).data = true := decide_eq_true hlow
  have hmay : Continues S past ⟨fin, opcode, payload⟩ ↔ pending past = [] :=
    ⟨fun h => h.start hdata hcont, fun h => ⟨fun he => absurd he hcont, fun _ _ => h, hclose⟩⟩
  have hempty : joined [] = [] := rfl
  rw [if_pos hdata] at hsnoc
  unfold Moves
  rw [hmay, Progress.past_snoc, hsnoc]
  cases hp : pending past with
  | cons g gs => cases fin <;> simp [handleFrame, Progress.past, hp, hcont, hlow]
  | nil =>
    cases fin with
    | false =>
      have hrep : replies past ⟨false, opcode, payload⟩ = [] := by simp [replies, hping]
      simp [handleFrame, Progress.past, hp, hcont, hrep, joined]
    | true =>
      by_cases hbin : opcode = WS_OP_BINARY
      · subst hbin
        have hrep : replies past ⟨true, WS_OP_BINARY, payload⟩ = [.message payload] := by
          simp [replies, hping, hdata, hp, joined]
        simp [handleFrame, Progress.past, hp, hcont, hlow, hrep, dispatch, hempty, Event.isMessage]
      · have hrep : replies past ⟨true, opcode, payload⟩ = [] := by simp [replies, hping, hp, hbin]
        simp [handleFrame, Progress.past, hp, hcont, hlow, hrep, dispatch, hbin, hempty, hping, hclose]

theorem moves_control (put : List Event) (past : List Frame) {opcode : Nat} (payload : Bytes)
    (hop : opcode = WS_OP_CLOSE ∨ opcode = WS_OP_PING ∨ opcode = WS_OP_PONG) :
    Moves S put past ⟨true, opcode, payload⟩ := by
  have hsnoc := pending_snoc past ⟨true, opcode, payload⟩
  have hhigh : ¬ opcode < 8 := by rcases hop with rfl | rfl | rfl <;> decide
  have hcont : opcode ≠ WS_OP_CONT := by rcases hop with rfl | rfl | rfl <;> decide
  have hbin : opcode ≠ WS_OP_BINARY := by rcases hop with rfl | rfl | rfl <;> decide
  have hdata : (⟨true, opcode, payload⟩ : Frame).data = false := decide_eq_false hhigh
  have hmay : Continues S past ⟨true, opcode, payload⟩ ↔ opcode ≠ WS_OP_CLOSE :=
    ⟨fun h => h.close, fun h => ⟨fun he => absurd he hcont, fun hd => absurd (hdata.symm.trans hd) (by decide), h⟩⟩
  rw [if_neg (by rw [hdata]; decide)] at hsnoc
  unfold Moves
  rw [hmay, Progress.past_snoc, hsnoc]
  by_cases hping : opcode = WS_OP_PING
  · subst hping
    have hclose : WS_OP_PING ≠ WS_OP_CLOSE := by decide
    have hrep : replies past ⟨true, WS_OP_PING, payload⟩ = [.pong payload] := by simp [replies]
    simp [handleFrame, Progress.past, hcont, hhigh, dispatch, hbin, hclose, hrep, Event.isMessage]
  · have hrep : replies past ⟨true, opcode, payload⟩ = [] := by simp [replies, hping, hdata]
    by_cases hclose : opcode = WS_OP_CLOSE
    · subst hclose
      simp [handleFrame, Progress.past, hcont, hhigh, dispatch, hbin, hping]
    · simp [handleFrame, Progress.past, hcont, hhigh, dispatch, hbin, hping, hclose, hrep]

/-- A frame that may follow takes the state along; another is refused with nothing done. -/
theorem handleFrame_past (put : List Event) (past : List Frame) {f : Frame} (hf : f.Known) :
    Moves S put past f := by
  obtain ⟨fin, opcode, payload⟩ := f
  obtain ⟨hop, hctl⟩ := hf
  simp only [List.mem_cons, List.not_mem_nil, or_false] at hop
  dsimp only at hctl
  by_cases hhigh : 8 ≤ opcode
  · obtain rfl : fin = true := hctl hhigh
    exact moves_control put past payload (by unfold WS_OP_CLOSE WS_OP_PING WS_OP_PONG; omega)
  · rcases hop with rfl | hop
    · exact moves_continuation put past fin payload
    · exact moves_start put past fin payload (by unfold WS_OP_BINARY; omega)

/-! ### The framer reads the stream -/

theorem rfcHead_known {p : Bytes} {masked : Bool} {cap : Nat} {f : Frame} {head len : Nat}
    (h : rfcHead p masked cap = .header f.fin f.opcode head len) : f.Known := by
  obtain ⟨hper, hfin, hop, -⟩ := rfcHead_header h
  refine ⟨hop ▸ hper.opcode, fun hhigh => ?_⟩
  rw [hfin]
  exact decide_eq_true (hper.control (hop ▸ hhigh)).1

theorem maskedHead_eq (p : Bytes) : maskedHead p = 2 + extended (byteAt p 1) + 4 := by
  unfold maskedHead extended
  split_ifs <;> omega

theorem rfcHead_masked {p : Bytes} {cap : Nat} {fin : Bool} {opcode head len : Nat}
    (h : rfcHead p true cap = .header fin opcode head len) : maskedHead p = head ∧ 6 ≤ head := by
  obtain ⟨-, -, -, hhead, -⟩ := rfcHead_header h
  rw [maskedHead_eq, hhead]
  exact ⟨rfl, by simp⟩

/-- The payload of a whole frame, as the module gives it. -/
theorem payloadOf_eq {bs : Bytes} {cap : Nat} {fin : Bool} {opcode head len : Nat}
    (hh : rfcHead bs (!S.client) cap = .header fin opcode head len) (hlen : head + len ≤ bs.length) :
    (Unmasks S (head + len) → payloadOf S bs head len = some (if S.client then (bs.drop head).take len
      else masked ((bs.drop (head - 4)).take 4) ((bs.drop head).take len))) ∧
    (¬ Unmasks S (head + len) → payloadOf S bs head len = none) := by
  unfold Unmasks payloadOf
  cases hc : S.client with
  | true => simp
  | false =>
    rw [hc] at hh
    obtain ⟨hwidth, hsix⟩ := rfcHead_masked hh
    have hframe : (bs.take (head + len)).length = head + len := List.length_take_of_le hlen
    have hone : byteAt (bs.take (head + len)) 1 = byteAt bs 1 := by
      rw [← List.take_append_drop (head + len) bs, List.take_left' hframe]
      exact (byteAt_append_left _ _ 1 (by omega)).symm
    have hhead : maskedHead (bs.take (head + len)) = head := by
      rw [maskedHead_eq, hone, ← maskedHead_eq, hwidth]
    simp only [Bool.false_eq_true, false_or, if_false]
    constructor
    · intro hroom
      have hcall : S.wsCall (WS_OP_MASK :: bs.take (head + len)) = some (masking (bs.take (head + len))) :=
        Ws.call_mask S.buffers S.memory (by omega) (by omega)
      rw [hcall, Option.map_some, masking, hhead]
      rw [List.drop_left' (by rw [List.length_take_of_le (by omega)])]
      rw [List.drop_take, List.drop_take, List.take_take, show min 4 (head + len - (head - 4)) = 4 by omega,
        Nat.add_sub_cancel_left]
    · intro hroom
      have hcall : S.wsCall (WS_OP_MASK :: bs.take (head + len)) = none := by
        unfold Setting.wsCall Ws.call
        exact if_pos (by rw [List.length_cons]; omega)
      rw [hcall]
      rfl

/-- One turn, from a state of some frames past. -/
theorem step_past (put : List Event) (past : List Frame) (bs : Bytes) :
    (Waits S past bs ∧ step S (Progress.past S put past) bs = .more) ∨
    (rfcHead bs (!S.client) (capAt S past) = .refused ∧
      step S (Progress.past S put past) bs = .refuse (Progress.past S put past) 0) ∨
    ∃ f n, Leads S past bs f n ∧
      ((Unmasks S n ∧ Continues S past f ∧
          step S (Progress.past S put past) bs = .item [] (Progress.past S put (past ++ [f])) n) ∨
        (¬ (Unmasks S n ∧ Continues S past f) ∧
          ∃ s', step S (Progress.past S put past) bs = .refuse s' n ∧ s'.done = put ++ events past)) := by
  have hopened : step S (Progress.past S put past) bs = frameStep S (Progress.past S put past) bs := step_opened rfl bs
  have hcap : (Progress.past S put past).cap = capAt S past := rfl
  rw [hopened]
  unfold frameStep
  rw [wsHead_eq, hcap]
  cases hh : rfcHead bs (!S.client) (capAt S past) with
  | null => exact Or.inl ⟨Or.inl hh, rfl⟩
  | refused => exact Or.inr (Or.inl ⟨rfl, rfl⟩)
  | header fin opcode head len =>
    dsimp only
    by_cases hshort : bs.length < head + len
    · rw [if_pos hshort]
      exact Or.inl ⟨Or.inr ⟨fin, opcode, head, len, hh, hshort⟩, rfl⟩
    · rw [if_neg hshort]
      obtain ⟨hsome, hnone⟩ := payloadOf_eq hh (Nat.not_lt.mp hshort)
      obtain ⟨payload, hpay⟩ : ∃ payload, payload = if S.client then (bs.drop head).take len
          else masked ((bs.drop (head - 4)).take 4) ((bs.drop head).take len) := ⟨_, rfl⟩
      rw [← hpay] at hsome
      refine Or.inr (Or.inr ⟨⟨fin, opcode, payload⟩, head + len,
        ⟨head, len, hh, rfl, Nat.not_lt.mp hshort, hpay⟩, ?_⟩)
      by_cases hu : Unmasks S (head + len)
      · rw [hsome hu]
        obtain ⟨hmove, hstop⟩ := handleFrame_past (S := S) put past (f := ⟨fin, opcode, payload⟩) (rfcHead_known hh)
        dsimp only at hmove hstop ⊢
        by_cases hc : Continues S past ⟨fin, opcode, payload⟩
        · rw [hmove hc]
          exact Or.inl ⟨hu, hc, rfl⟩
        · obtain ⟨hfalse, hdone⟩ := hstop hc
          rw [hfalse]
          exact Or.inr ⟨fun h => hc h.2, _, rfl, hdone⟩
      · rw [hnone hu]
        exact Or.inr ⟨fun h => hu h.1, _, rfl, rfl⟩

/-- From a state of some frames past, one parse reads the frames of the bytes. -/
theorem reads_parse (put : List Event) (past : List Frame) (bs : Bytes) : ∃ fs,
    let R := Incremental.parse (step S) (Progress.past S put past) bs
    Reads S past bs fs R.rest R.ok ∧ R.state.done = put ++ events (past ++ fs) ∧
    (R.ok = true → R.state = Progress.past S put (past ++ fs)) := by
  generalize hlen : bs.length = len
  induction len using Nat.strong_induction_on generalizing past bs with
  | _ len ih =>
    rw [Incremental.parse_step (step_steady S)]
    rcases step_past (S := S) put past bs with ⟨hw, he⟩ | ⟨hf, he⟩ | ⟨f, n, hl, ⟨hu, hc, he⟩ | ⟨hno, s', he, hdone⟩⟩
    · rw [he]
      exact ⟨[], .waits hw, by rw [List.append_nil]; rfl, fun _ => by rw [List.append_nil]⟩
    · rw [he]
      exact ⟨[], .forbidden hf, by rw [List.append_nil]; rfl, nofun⟩
    · obtain ⟨hpos, hn, -⟩ := (step_steady S).item he
      obtain ⟨fs, hreads, hdone, hstate⟩ := ih (bs.drop n).length (by rw [List.length_drop]; omega) (past ++ [f])
        (bs.drop n) rfl
      rw [he]
      rw [List.append_assoc] at hdone hstate
      exact ⟨f :: fs, .frame hl hu hc hreads, hdone, hstate⟩
    · rw [he]
      exact ⟨[], .ends hl hno, by rw [List.append_nil]; exact hdone, nofun⟩

/-- What a framer's parse of a stream comes to: the head, and past it the frames. -/
inductive Parsed (S : Setting) (stream : Bytes) (R : Result Progress Event UInt8) : Prop
  | headless : headEnd stream = none → R.state = Progress.new →
      R.ok = decide (stream.length ≤ MAX_WS_HANDSHAKE) → R.rest = stream → Parsed S stream R
  | refused {n} : headEnd stream = some n → S.upgrade (stream.take (n - 4)) = none → R.state = Progress.new →
      R.ok = false → R.rest = stream → Parsed S stream R
  | upgraded {n put fs} : headEnd stream = some n → S.upgrade (stream.take (n - 4)) = some put →
      Reads S [] (stream.drop n) fs R.rest R.ok → R.state.done = put.map Event.answer ++ events fs →
      (R.ok = true → R.state = Progress.past S (put.map Event.answer) fs) → Parsed S stream R

theorem parsed (stream : Bytes) : Parsed S stream (Incremental.parse (step S) Progress.new stream) := by
  rw [Incremental.parse_step (step_steady S), step_closed rfl]
  unfold headStep
  cases hh : headEnd stream with
  | none =>
    dsimp only
    by_cases hlong : stream.length > MAX_WS_HANDSHAKE
    · rw [if_pos hlong]
      exact .headless hh rfl (decide_eq_false (Nat.not_le.mpr hlong)).symm rfl
    · rw [if_neg hlong]
      exact .headless hh rfl (decide_eq_true (Nat.not_lt.mp hlong)).symm rfl
  | some n =>
    dsimp only
    cases hu : S.upgrade (stream.take (n - 4)) with
    | none => exact .refused hh hu rfl rfl rfl
    | some put =>
      have hpast : ({ Progress.new with
          opened := true
          done := Progress.new.done ++ put.map Event.answer } : Progress) =
          Progress.past S (put.map Event.answer) [] := by
        unfold Progress.past capAt
        simp [Progress.new, pending, joined, events, eventsFrom]
      obtain ⟨fs, hreads, hdone, hstate⟩ := reads_parse (S := S) (put.map Event.answer) [] (stream.drop n)
      dsimp only
      rw [hpast]
      exact .upgraded hh hu hreads hdone hstate

theorem Parsed.reassembles {stream : Bytes} {R : Result Progress Event UInt8} (h : Parsed S stream R) :
    Reassembles S stream R.state.done R.ok R.rest := by
  cases h with
  | headless hh hs hok hrest =>
    rw [hs, hok, hrest]
    exact .headless hh
  | refused hh hu hs hok hrest =>
    rw [hs, hok, hrest]
    exact .refused hh hu
  | upgraded hh hu hreads hdone _ =>
    rw [hdone]
    exact .upgraded hh hu hreads

/-- However a stream is cut into pushes: what the framer delivers and answers, whether a push answers
false and, if none does, what is left in its buffer are as for the stream pushed whole, and are what
RFC 6455 makes of the stream. -/
theorem ws_exact (S : Setting) (chunks : List Bytes) :
    let r := WsFramer.pushes S WsFramer.new chunks
    let whole := WsFramer.pushes S WsFramer.new [chunks.flatten]
    (r.1.progress.done = whole.1.progress.done ∧ r.2 = whole.2 ∧
      (r.2 = true → r.1.parts.contents = whole.1.parts.contents)) ∧
    ∃ rest, Reassembles S chunks.flatten r.1.progress.done r.2 rest ∧
      (r.2 = true → r.1.parts.contents = rest) ∧
      ∀ done ok rest', Reassembles S chunks.flatten done ok rest' →
        done = r.1.progress.done ∧ ok = r.2 ∧ rest' = rest := by
  intro r whole
  have hcut := WsFramer.pushes_new (S := S) chunks
  have hwhole := WsFramer.pushes_new (S := S) [chunks.flatten]
  rw [List.flatten_singleton] at hwhole
  have hreas := (parsed (S := S) chunks.flatten).reassembles
  refine ⟨⟨?_, hcut.ok.trans hwhole.ok.symm, fun hok => ?_⟩, _, ?_, fun hok => hcut.contents (hcut.ok ▸ hok), ?_⟩
  · rw [hcut.progress, hwhole.progress]
  · have hok' := hcut.ok.symm.trans hok
    rw [hcut.contents hok', hwhole.contents hok']
  · rw [hcut.progress, hcut.ok]
    exact hreas
  · intro done ok rest' h
    rw [hcut.progress, hcut.ok]
    exact h.unique hreas

/-- A server refuses a head that has no key: the byte behind it is buffered or not, by the cut. -/
theorem buffered_differs :
    let S : Setting := ⟨false, 2 * 1024 * 1024, fun _ => false, [], ⟨0, SCRATCH_SIZE, Or.inl (Nat.le_refl _)⟩,
      fun _ => 0⟩
    (WsFramer.pushes S WsFramer.new [[13, 10, 13, 10], [0]]).1.parts.contents = [13, 10, 13, 10] ∧
    (WsFramer.pushes S WsFramer.new [[[13, 10, 13, 10], [0]].flatten]).1.parts.contents = [13, 10, 13, 10, 0] := by
  decide +kernel

end SeedTransport.Framing
