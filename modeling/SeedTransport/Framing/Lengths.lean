import SeedTransport.Framing.Pieces
import SeedTransport.Lib.Incremental

set_option autoImplicit false

namespace SeedTransport.Framing

/-! Length-prefixed framing (`framing.js`): however the stream is cut into reads, the messages sent
come out, up to one that is over the cap. -/

open Incremental (Verdict Result Steady)

def MAX_HANDSHAKE_FRAME_BYTES : Nat := 8 * 1024

def MERGE_BELOW : Nat := 8 * 1024

/-- The framer, and the buffers it has delivered. -/
structure LengthFramer where
  parts : Queue
  cap : Nat
  delivered : List Nat

namespace LengthFramer

def new : LengthFramer := ⟨Queue.new MERGE_BELOW, MAX_HANDSHAKE_FRAME_BYTES, []⟩

/-- What `send` puts. -/
def send (msg : Bytes) : Bytes := writeU32BE msg.length ++ msg

-- The configured `maxFrameBytes`, and which messages raise the cap as they are handled.
variable (maxFrameBytes : Nat) (raises : Nat → Bool)

/-- `raiseCap`, if the handling of message `k` comes to it. -/
def handled (k cap : Nat) : Nat := if raises k then maxFrameBytes else cap

/-- The loop of `parse`. Until the cap is raised it goes on in a promise that waits for the message to
be handled; once it is raised nothing reads what handling changes. Each turn takes four bytes. -/
def parseLoop : Nat → LengthFramer → LengthFramer × Bool
  | 0, s => (s, true)
  | fuel + 1, s =>
    let p := s.parts
    if p.parts.bytes < 4 then (s, true)
    else
      let len := p.parts.byteAt p.heap 0 * 2 ^ 24 + p.parts.byteAt p.heap 1 * 2 ^ 16 +
        p.parts.byteAt p.heap 2 * 2 ^ 8 + p.parts.byteAt p.heap 3
      if len > s.cap then (s, false)
      else if p.parts.bytes < 4 + len then (s, true)
      else
        let r := (p.take 4).takeCopy len 0
        parseLoop fuel
          { parts := r.1, cap := handled maxFrameBytes raises s.delivered.length s.cap,
            delivered := s.delivered ++ [r.2] }

/-- `push`, once its answer has settled. -/
def push (s : LengthFramer) (chunk : Bytes) : LengthFramer × Bool :=
  let s := { s with parts := s.parts.push chunk }
  parseLoop maxFrameBytes raises (s.parts.parts.bytes + 1) s

/-- One push after the other, up to one that answers false. -/
def pushes : LengthFramer → List Bytes → LengthFramer × Bool
  | s, [] => (s, true)
  | s, c :: cs =>
    let r := push maxFrameBytes raises s c
    if r.2 then pushes r.1 cs else r

/-- What the framer makes of the bytes at the front, with its cap and the messages so far. -/
def step (s : Nat × Nat) (bs : Bytes) : Verdict (Nat × Nat) Bytes :=
  if bs.length < 4 then .more
  else if readU32BE bs 0 > s.1 then .refuse s 0
  else if bs.length < 4 + readU32BE bs 0 then .more
  else .item [(bs.drop 4).take (readU32BE bs 0)] (handled maxFrameBytes raises s.2 s.1, s.2 + 1)
    (4 + readU32BE bs 0)

variable {maxFrameBytes : Nat} {raises : Nat → Bool}

theorem readU32BE_prefix {a : Bytes} (b : Bytes) (h : 4 ≤ a.length) :
    readU32BE (a ++ b) 0 = readU32BE a 0 := by
  unfold readU32BE
  rw [byteAt_append_left a b 0 (by omega), byteAt_append_left a b (0 + 1) (by omega),
    byteAt_append_left a b (0 + 2) (by omega), byteAt_append_left a b (0 + 3) (by omega)]

variable (maxFrameBytes raises) in
theorem step_steady : Steady (step maxFrameBytes raises) where
  item {s bs out s' n} h := by
    unfold step at h
    split at h
    · cases h
    · rename_i hfour
      split at h
      · cases h
      · rename_i hcap
        split at h
        · cases h
        · rename_i hwhole
          cases h
          refine ⟨by omega, by omega, fun cs => ?_⟩
          have hread := readU32BE_prefix cs (Nat.not_lt.mp hfour)
          unfold step
          rw [hread, if_neg (by rw [List.length_append]; omega), if_neg hcap,
            if_neg (by rw [List.length_append]; omega), List.drop_append_of_le_length (by omega),
            List.take_append_of_le_length (by rw [List.length_drop]; omega)]
  refuse {s bs s' n} h := by
    unfold step at h
    split at h
    · cases h
    · rename_i hfour
      split at h
      · rename_i hcap
        cases h
        refine ⟨Nat.zero_le _, fun cs => ?_⟩
        have hread := readU32BE_prefix cs (Nat.not_lt.mp hfour)
        unfold step
        rw [hread, if_neg (by rw [List.length_append]; omega), if_pos hcap]
      · split at h <;> cases h

/-- The messages delivered, as their buffers hold them. -/
def messages (s : LengthFramer) : List Bytes := s.delivered.map fun b => s.parts.heap.getD b []

/-- Each message was delivered in a buffer of its own. -/
structure Fine (s : LengthFramer) : Prop where
  nodup : s.delivered.Nodup
  copied : ∀ b ∈ s.delivered, b ∈ s.parts.copied

/-- What the loop does is what the parser makes of the bytes in the queue. -/
structure Follows (s : LengthFramer) (r : LengthFramer × Bool) (R : Result (Nat × Nat) Bytes UInt8) :
    Prop where
  fine : r.1.Fine
  ok : r.2 = R.ok
  state : (r.1.cap, r.1.delivered.length) = R.state
  contents : r.1.parts.contents = R.rest
  messages : r.1.messages = s.messages ++ R.out

theorem messages_keep {s : LengthFramer} (hf : s.Fine) {q : Queue} (hk : s.parts.Keeps q) :
    (s.delivered.map fun b => q.heap.getD b []) = s.messages :=
  List.map_congr_left fun b hb => hk.held b (Or.inr (hf.copied b hb))

theorem len_eq (q : Queue) : q.parts.byteAt q.heap 0 * 2 ^ 24 + q.parts.byteAt q.heap 1 * 2 ^ 16 +
    q.parts.byteAt q.heap 2 * 2 ^ 8 + q.parts.byteAt q.heap 3 = readU32BE q.contents 0 := by
  simp only [q.byteAt_eq]
  rfl

variable (maxFrameBytes raises) in
theorem parseLoop_follows (fuel : Nat) {s : LengthFramer} (hf : s.Fine) :
    Follows s (parseLoop maxFrameBytes raises fuel s)
      (Incremental.run (step maxFrameBytes raises) fuel (s.cap, s.delivered.length) s.parts.contents) := by
  induction fuel generalizing s with
  | zero => exact ⟨hf, rfl, rfl, rfl, (List.append_nil _).symm⟩
  | succ fuel ih =>
    have hbytes := s.parts.bytes_eq
    have hstop : ∀ ok, Follows s (s, ok) ⟨[], (s.cap, s.delivered.length), s.parts.contents, ok⟩ :=
      fun ok => ⟨hf, rfl, rfl, rfl, (List.append_nil _).symm⟩
    unfold parseLoop Incremental.run step
    dsimp only
    rw [len_eq, hbytes]
    generalize readU32BE s.parts.contents 0 = len
    by_cases hfour : s.parts.contents.length < 4
    · rw [if_pos hfour, if_pos hfour]
      exact hstop true
    · rw [if_neg hfour, if_neg hfour]
      by_cases hcap : len > s.cap
      · rw [if_pos hcap, if_pos hcap]
        exact hstop false
      · rw [if_neg hcap, if_neg hcap]
        by_cases hwhole : s.parts.contents.length < 4 + len
        · rw [if_pos hwhole, if_pos hwhole]
          exact hstop true
        · rw [if_neg hwhole, if_neg hwhole]
          have htake := s.parts.take_contents (n := 4) (by omega)
          obtain ⟨hcontents, hcopy, hin, hnew, hkeep⟩ := (s.parts.take 4).takeCopy_spec (n := len)
            (by rw [htake, List.length_drop]; omega) 0
          generalize hr : (s.parts.take 4).takeCopy len 0 = r at hcontents hcopy hin hnew hkeep
          obtain ⟨q, b⟩ := r
          have hk := (s.parts.take_keeps 4).trans hkeep
          have hfine : Fine ⟨q, handled maxFrameBytes raises s.delivered.length s.cap,
              s.delivered ++ [b]⟩ := {
            nodup := by
              refine List.Nodup.append hf.nodup (List.nodup_singleton b) ?_
              intro c hc hcb
              obtain rfl := List.mem_singleton.mp hcb
              exact hnew ((s.parts.take_keeps 4).copied _ (hf.copied _ hc))
            copied := fun c hc => by
              rcases List.mem_append.mp hc with hc | hc
              · exact hk.copied c (hf.copied c hc)
              · rw [List.mem_singleton.mp hc]
                exact hin }
          have hrest := ih hfine
          dsimp only at hrest hcopy hcontents
          rw [hcontents, htake, List.drop_drop, List.length_append, List.length_singleton] at hrest
          refine ⟨hrest.fine, hrest.ok, hrest.state, hrest.contents, ?_⟩
          rw [hrest.messages, ← List.append_assoc]
          congr 1
          show ((s.delivered ++ [b]).map fun b => q.heap.getD b []) = s.messages ++ _
          rw [List.map_append, messages_keep hf hk, List.map_singleton, hcopy, htake, List.replicate_zero,
            List.nil_append]

variable (maxFrameBytes raises) in
/-- A run of pushes is the parser fed the same chunks. -/
theorem pushes_follows (chunks : List Bytes) {s : LengthFramer} (hf : s.Fine) :
    Follows s (pushes maxFrameBytes raises s chunks)
      (Incremental.feed (step maxFrameBytes raises) (s.cap, s.delivered.length) s.parts.contents chunks) := by
  induction chunks generalizing s with
  | nil => exact ⟨hf, rfl, rfl, rfl, (List.append_nil _).symm⟩
  | cons c cs ih =>
    have hk := s.parts.push_keeps c
    have hf₁ : Fine { s with parts := s.parts.push c } :=
      ⟨hf.nodup, fun b hb => hk.copied b (hf.copied b hb)⟩
    have hone := parseLoop_follows maxFrameBytes raises
      ((s.parts.push c).parts.bytes + 1) hf₁
    rw [(s.parts.push c).bytes_eq] at hone
    have hmessages : messages { s with parts := s.parts.push c } = s.messages := by
      unfold messages
      exact messages_keep hf hk
    unfold pushes push Incremental.feed Incremental.parse
    dsimp only at hone ⊢
    rw [(s.parts.push c).bytes_eq, ← Queue.push_contents]
    generalize parseLoop maxFrameBytes raises _ _ = r at hone ⊢
    generalize Incremental.run _ _ _ _ = R at hone ⊢
    rw [← hone.ok]
    cases hok : r.2 with
    | false =>
      rw [if_neg (by decide), if_neg (by decide)]
      exact ⟨hone.fine, hone.ok, hone.state, hone.contents, by rw [hone.messages, hmessages]⟩
    | true =>
      have hrest := ih hone.fine
      rw [hone.state, hone.contents] at hrest
      rw [if_pos rfl, if_pos rfl]
      refine ⟨hrest.fine, hrest.ok, hrest.state, hrest.contents, ?_⟩
      rw [hrest.messages, hone.messages, hmessages, List.append_assoc]

/-- The messages sent that come out, and whether the rest is not refused: up to the first that is
longer than the cap. -/
def admitted (maxFrameBytes : Nat) (raises : Nat → Bool) : Nat → Nat → List Bytes → List Bytes × Bool
  | _, _, [] => ([], true)
  | cap, k, m :: ms =>
    if m.length > cap then ([], false)
    else
      let r := admitted maxFrameBytes raises (handled maxFrameBytes raises k cap) (k + 1) ms
      (m :: r.1, r.2)

/-- The same by the time `n` bytes have come: a message is out once it is whole, and refused once its
length is there. -/
def arrived (maxFrameBytes : Nat) (raises : Nat → Bool) :
    Nat → Nat → List Bytes → Nat → List Bytes × Bool
  | _, _, [], _ => ([], true)
  | cap, k, m :: ms, n =>
    if n < 4 then ([], true)
    else if m.length > cap then ([], false)
    else if n < 4 + m.length then ([], true)
    else
      let r := arrived maxFrameBytes raises (handled maxFrameBytes raises k cap) (k + 1) ms
        (n - (4 + m.length))
      (m :: r.1, r.2)

@[simp] theorem send_length (m : Bytes) : (send m).length = 4 + m.length := by simp [send]

theorem arrived_all (cap k : Nat) (ms : List Bytes) :
    arrived maxFrameBytes raises cap k ms (ms.map send).flatten.length =
      admitted maxFrameBytes raises cap k ms := by
  induction ms generalizing cap k with
  | nil => rfl
  | cons m ms ih =>
    unfold arrived admitted
    rw [List.map_cons, List.flatten_cons, List.length_append, send_length, if_neg (by omega),
      if_neg (show ¬ 4 + m.length + _ < 4 + m.length by omega), Nat.add_sub_cancel_left, ih]

/-- The parser on a start of the stream. -/
theorem parse_arrived (cap k : Nat) {ms : List Bytes} (hms : ∀ m ∈ ms, m.length < 2 ^ 32) {bs : Bytes}
    (hbs : bs <+: (ms.map send).flatten) :
    let R := Incremental.parse (step maxFrameBytes raises) (cap, k) bs
    (R.out, R.ok) = arrived maxFrameBytes raises cap k ms bs.length := by
  induction ms generalizing cap k bs with
  | nil =>
    obtain rfl := List.prefix_nil.mp hbs
    rfl
  | cons m ms ih =>
    obtain ⟨later, hlater⟩ := hbs
    rw [List.map_cons, List.flatten_cons] at hlater
    rw [Incremental.parse_step (step_steady _ _)]
    unfold step arrived
    dsimp only
    by_cases hfour : bs.length < 4
    · rw [if_pos hfour, if_pos hfour]
    · have hread : readU32BE bs 0 = m.length := by
        rw [← readU32BE_prefix later (by omega), hlater, send, List.append_assoc, readU32BE_write]
        exact Nat.mod_eq_of_lt (hms m List.mem_cons_self)
      rw [if_neg hfour, if_neg hfour, hread]
      by_cases hcap : m.length > cap
      · rw [if_pos hcap, if_pos hcap]
      · rw [if_neg hcap, if_neg hcap]
        by_cases hwhole : bs.length < 4 + m.length
        · rw [if_pos hwhole, if_pos hwhole]
        · rw [if_neg hwhole, if_neg hwhole]
          have hsplit : bs = send m ++ bs.drop (4 + m.length) := by
            have htake := congrArg (List.take (4 + m.length)) hlater
            rw [List.take_append_of_le_length (by omega), ← send_length m, List.take_left] at htake
            rw [← send_length m]
            exact ((List.take_append_drop _ bs).symm.trans (by rw [htake]))
          have hitem : (bs.drop 4).take m.length = m := by
            rw [hsplit, send, List.append_assoc, List.drop_append_of_le_length (by simp)]
            simp [writeU32BE]
          have hprefix : bs.drop (4 + m.length) <+: (ms.map send).flatten := by
            refine ⟨later, (List.append_right_inj (send m)).mp ?_⟩
            rw [← List.append_assoc, ← hsplit, hlater]
          have hrest := ih (handled maxFrameBytes raises k cap) (k + 1)
            (fun x hx => hms x (List.mem_cons_of_mem _ hx)) hprefix
          dsimp only at hrest ⊢
          rw [List.length_drop] at hrest
          rw [hitem, ← hrest]
          rfl

theorem new_fine : new.Fine := ⟨List.nodup_nil, nofun⟩

variable (maxFrameBytes raises) in
/-- A new framer past any pushes is the parser on all they brought. -/
theorem pushes_new (chunks : List Bytes) :
    let r := pushes maxFrameBytes raises new chunks
    let R := Incremental.parse (step maxFrameBytes raises) (MAX_HANDSHAKE_FRAME_BYTES, 0) chunks.flatten
    r.1.Fine ∧ r.1.messages = R.out ∧ r.2 = R.ok := by
  have hf := pushes_follows maxFrameBytes raises chunks new_fine
  obtain ⟨hout, hok, -⟩ := Incremental.feed_eq (step_steady maxFrameBytes raises) (MAX_HANDSHAKE_FRAME_BYTES, 0) [] chunks rfl
  exact ⟨hf.fine, hf.messages.trans hout, hf.ok.trans hok⟩

/-- The cap once some messages are handled. -/
def capAfter (maxFrameBytes : Nat) (raises : Nat → Bool) : Nat → Nat → List Bytes → Nat
  | cap, _, [] => cap
  | cap, k, _ :: ms => capAfter maxFrameBytes raises (handled maxFrameBytes raises k cap) (k + 1) ms

/-- A message over the cap is refused once its length has come. -/
theorem arrived_over (cap k : Nat) (pre post : List Bytes) {m : Bytes}
    (hpre : admitted maxFrameBytes raises cap k pre = (pre, true))
    (hover : m.length > capAfter maxFrameBytes raises cap k pre) :
    arrived maxFrameBytes raises cap k (pre ++ m :: post) ((pre.map send).flatten.length + 4) = (pre, false) := by
  induction pre generalizing cap k with
  | nil =>
    rw [List.nil_append]
    unfold arrived
    rw [if_neg (by simp)]
    exact if_pos hover
  | cons x pre ih =>
    unfold admitted at hpre
    split at hpre
    · simp at hpre
    · rename_i hcap
      simp only [Prod.mk.injEq, List.cons.injEq, true_and] at hpre
      have hrest := ih (handled maxFrameBytes raises k cap) (k + 1) (Prod.ext hpre.1 hpre.2) hover
      rw [List.cons_append]
      unfold arrived
      rw [List.map_cons, List.flatten_cons, List.length_append, send_length, if_neg (by omega),
        if_neg hcap, if_neg (by omega), show 4 + x.length + (pre.map send).flatten.length + 4 -
          (4 + x.length) = (pre.map send).flatten.length + 4 by omega, hrest]

/-- For messages shorter than 2^32 bytes, however the stream is cut, and by any time: what is
delivered, in buffers of the framer's own making that it views and writes no more, and whether it
refuses; a message over the cap is refused at its length. -/
theorem lengths_exact (maxFrameBytes : Nat) (raises : Nat → Bool) (ms : List Bytes)
    (hms : ∀ m ∈ ms, m.length < 2 ^ 32) :
    (∀ chunks : List Bytes, chunks.flatten <+: (ms.map send).flatten →
      let r := pushes maxFrameBytes raises new chunks
      (r.1.messages, r.2) = arrived maxFrameBytes raises MAX_HANDSHAKE_FRAME_BYTES 0 ms
        chunks.flatten.length ∧
      r.1.delivered.Nodup ∧ ∀ b ∈ r.1.delivered, b ∉ r.1.parts.views ∧ b ∉ r.1.parts.lent ∧
        ∀ c, (r.1.parts.push c).heap.getD b [] = r.1.parts.heap.getD b []) ∧
    (∀ chunks : List Bytes, chunks.flatten = (ms.map send).flatten →
      let r := pushes maxFrameBytes raises new chunks
      (r.1.messages, r.2) = admitted maxFrameBytes raises MAX_HANDSHAKE_FRAME_BYTES 0 ms) ∧
    ∀ pre m post, ms = pre ++ m :: post →
      admitted maxFrameBytes raises MAX_HANDSHAKE_FRAME_BYTES 0 pre = (pre, true) →
      m.length > capAfter maxFrameBytes raises MAX_HANDSHAKE_FRAME_BYTES 0 pre →
      ∀ chunks : List Bytes, chunks.flatten = (pre.map send).flatten ++ writeU32BE m.length →
        let r := pushes maxFrameBytes raises new chunks
        (r.1.messages, r.2) = (pre, false) := by
  have hmain : ∀ chunks : List Bytes, chunks.flatten <+: (ms.map send).flatten →
      ((pushes maxFrameBytes raises new chunks).1.messages, (pushes maxFrameBytes raises new chunks).2) =
        arrived maxFrameBytes raises MAX_HANDSHAKE_FRAME_BYTES 0 ms chunks.flatten.length := by
    intro chunks hcut
    obtain ⟨-, hout, hok⟩ := pushes_new maxFrameBytes raises chunks
    rw [hout, hok]
    exact parse_arrived MAX_HANDSHAKE_FRAME_BYTES 0 hms hcut
  refine ⟨fun chunks hcut => ?_, fun chunks hcut => ?_, fun pre m post heq hpre hover chunks hcut => ?_⟩
  · obtain ⟨hfine, -, -⟩ := pushes_new maxFrameBytes raises chunks
    refine ⟨hmain chunks hcut, hfine.nodup, fun b hb => ?_⟩
    have hcopied := hfine.copied b hb
    exact ⟨fun hv => Queue.views_copied _ b hv hcopied, Queue.distinct _ b hcopied,
      fun c => (Queue.push_keeps _ c).held b (Or.inr hcopied)⟩
  · have h := hmain chunks (hcut ▸ List.prefix_refl _)
    rw [hcut, arrived_all] at h
    exact h
  · have hprefix : chunks.flatten <+: (ms.map send).flatten := by
      rw [heq, hcut, List.map_append, List.flatten_append, List.map_cons, List.flatten_cons, send]
      exact ⟨m ++ (post.map send).flatten, by simp only [List.append_assoc]⟩
    have h := hmain chunks hprefix
    rw [hcut, List.length_append, writeU32BE_length, heq, arrived_over _ _ pre post hpre hover] at h
    exact h

theorem lengths_exact_cut :
    let r := pushes (2 * 1024 * 1024) (· == 0) new [[0, 0], [0, 2, 1], [2, 0, 0], [0, 0]]
    (r.1.messages, r.2) = ([[1, 2], []], true) :=
  (lengths_exact (2 * 1024 * 1024) (· == 0) [[1, 2], []] (by decide)).2.1
    [[0, 0], [0, 2, 1], [2, 0, 0], [0, 0]] (by decide)

theorem wraps_of_length {m : Bytes} (hlen : m.length = 2 ^ 32) :
    m.length > MAX_HANDSHAKE_FRAME_BYTES ∧ writeU32BE m.length <+: send m ∧
    (pushes (2 * 1024 * 1024) (fun _ => false) new [writeU32BE m.length]).1.messages = [[]] ∧
    (pushes (2 * 1024 * 1024) (fun _ => false) new [writeU32BE m.length]).2 = true ∧
    admitted (2 * 1024 * 1024) (fun _ => false) MAX_HANDSHAKE_FRAME_BYTES 0 [m] = ([], false) := by
  have hwrite : writeU32BE m.length = [0, 0, 0, 0] := by
    rw [hlen]
    decide
  obtain ⟨-, hmessages, hok⟩ := pushes_new (2 * 1024 * 1024) (fun _ => false)
    [[0, 0, 0, 0]]
  have hover : m.length > MAX_HANDSHAKE_FRAME_BYTES := by
    rw [hlen]
    decide
  refine ⟨hover, List.prefix_append _ _, ?_, ?_, ?_⟩
  · rw [hwrite, hmessages]
    decide
  · rw [hwrite, hok]
    decide
  · unfold admitted
    rw [if_pos hover]

/-- Of a message of 2^32 bytes the length that is sent is 0: the framer delivers an empty message and
waits, where it should refuse. -/
theorem send_wraps :
    (List.replicate (2 ^ 32) (0 : UInt8)).length > MAX_HANDSHAKE_FRAME_BYTES ∧
    writeU32BE (List.replicate (2 ^ 32) (0 : UInt8)).length <+: send (List.replicate (2 ^ 32) 0) ∧
    (pushes (2 * 1024 * 1024) (fun _ => false) new
      [writeU32BE (List.replicate (2 ^ 32) (0 : UInt8)).length]).1.messages = [[]] ∧
    (pushes (2 * 1024 * 1024) (fun _ => false) new
      [writeU32BE (List.replicate (2 ^ 32) (0 : UInt8)).length]).2 = true ∧
    admitted (2 * 1024 * 1024) (fun _ => false) MAX_HANDSHAKE_FRAME_BYTES 0
      [List.replicate (2 ^ 32) 0] = ([], false) :=
  wraps_of_length List.length_replicate

end LengthFramer

end SeedTransport.Framing
