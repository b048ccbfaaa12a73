import SeedTransport.Framing.WsFramer

set_option autoImplicit false

namespace SeedTransport.Framing

/-! A framer past any reads has made of the stream what one parse of it makes. -/

open Incremental (Verdict Result Steady)

/-! ### The head -/

/-- A blank line ends here. -/
def Ended (p : Bytes) : Prop := [13, 10, 13, 10] <:+ p

instance (p : Bytes) : Decidable (Ended p) := inferInstanceAs (Decidable (_ <:+ _))

/-- Where the HTTP head ends, terminator included, within its ceiling. -/
def headEnd (p : Bytes) : Option Nat :=
  (List.range (MAX_WS_HANDSHAKE + 1)).find? fun n => decide (n ≤ p.length ∧ Ended (p.take n))

theorem headEnd_some {p : Bytes} {n : Nat} : headEnd p = some n ↔
    n ≤ MAX_WS_HANDSHAKE ∧ n ≤ p.length ∧ Ended (p.take n) ∧ ∀ k, k < n → ¬ Ended (p.take k) := by
  unfold headEnd
  rw [List.find?_range_eq_some]
  simp only [decide_eq_true_eq, List.mem_range, Bool.not_eq_true', decide_eq_false_iff_not]
  constructor
  · rintro ⟨⟨hlen, hend⟩, hmax, hbefore⟩
    exact ⟨by omega, hlen, hend, fun k hk he => hbefore k hk ⟨by omega, he⟩⟩
  · rintro ⟨hmax, hlen, hend, hbefore⟩
    exact ⟨⟨hlen, hend⟩, by omega, fun k hk he => hbefore k hk he.2⟩

theorem headEnd_none {p : Bytes} : headEnd p = none ↔
    ∀ k, k ≤ MAX_WS_HANDSHAKE → k ≤ p.length → ¬ Ended (p.take k) := by
  unfold headEnd
  rw [List.find?_range_eq_none]
  simp only [Bool.not_eq_true', decide_eq_false_iff_not, not_and]
  exact forall_congr' fun k => ⟨fun h hk => h (by omega), fun h hk => h (by omega)⟩

theorem ended_append (p : Bytes) {q : Bytes} {k : Nat} (hk : k ≤ p.length) :
    Ended ((p ++ q).take k) ↔ Ended (p.take k) := by
  rw [List.take_append_of_le_length hk]

/-- The last four bytes decide. -/
theorem ended_iff (p : Bytes) : Ended p ↔ p.reverse[3]? = some 13 ∧ p.reverse[2]? = some 10 ∧
    p.reverse[1]? = some 13 ∧ p.reverse[0]? = some 10 := by
  unfold Ended
  rw [← List.reverse_prefix]
  generalize p.reverse = r
  match r with
  | [] | [_] | [_, _] | [_, _, _] => simp
  | a :: b :: c :: d :: r => simp; tauto

/-- What the scan remembers of the bytes it has seen. -/
structure Scan.Saw (h : Scan) (p : Bytes) : Prop where
  h0 : h.h0 = p.reverse[3]?
  h1 : h.h1 = p.reverse[2]?
  h2 : h.h2 = p.reverse[1]?
  h3 : h.h3 = p.reverse[0]?
  headLen : h.headLen = p.length
  head : headEnd p = none
  room : p.length ≤ MAX_WS_HANDSHAKE

theorem Scan.new_saw : Scan.new.Saw [] :=
  ⟨rfl, rfl, rfl, rfl, rfl, headEnd_none.mpr fun k _ _ => by rw [List.take_nil]; decide, Nat.zero_le _⟩

/-- The scan over a chunk answers for the whole stream so far. -/
theorem scanHead_spec {h : Scan} {p : Bytes} (hs : h.Saw p) (chunk : Bytes) :
    (∀ n, headEnd (p ++ chunk) = some n → 4 ≤ n ∧ (scanHead h chunk).2 = (n - 4 : Nat)) ∧
    (headEnd (p ++ chunk) = none →
      ((p ++ chunk).length > MAX_WS_HANDSHAKE ∧ (scanHead h chunk).2 = -2) ∨
      ((p ++ chunk).length ≤ MAX_WS_HANDSHAKE ∧ (scanHead h chunk).2 = -1 ∧ (scanHead h chunk).1.Saw (p ++ chunk))) := by
  induction chunk generalizing h p with
  | nil =>
    rw [List.append_nil, hs.head]
    exact ⟨nofun, fun _ => Or.inr ⟨hs.room, rfl, hs⟩⟩
  | cons c chunk ih =>
    have hold : ∀ k, k ≤ p.length → ¬ Ended ((p ++ c :: chunk).take k) := by
      intro k hk
      rw [ended_append p hk]
      exact headEnd_none.mp hs.head k (by have := hs.room; omega) hk
    have happ : p ++ c :: chunk = (p ++ [c]) ++ chunk := by simp
    have hlen : (p ++ [c]).length = p.length + 1 := by simp
    have htake : (p ++ c :: chunk).take (p.length + 1) = p ++ [c] := by
      rw [happ, ← hlen, List.take_left]
    have hended : Ended (p ++ [c]) ↔ h.h1 = some 13 ∧ h.h2 = some 10 ∧ h.h3 = some 13 ∧ some c = some 10 := by
      rw [ended_iff, hs.h1, hs.h2, hs.h3, List.reverse_append]
      rfl
    unfold scanHead
    dsimp only
    rw [hs.headLen]
    by_cases hmax : p.length + 1 > MAX_WS_HANDSHAKE
    · have hnone : headEnd (p ++ c :: chunk) = none := by
        refine headEnd_none.mpr fun k hk _ => hold k ?_
        omega
      rw [if_pos (Or.inr hmax), hnone, if_neg (fun h => by omega)]
      exact ⟨nofun, fun _ => Or.inl ⟨by rw [happ, List.length_append]; omega, rfl⟩⟩
    by_cases hend : Ended (p ++ [c])
    · have hfour : 4 ≤ p.length + 1 := hlen ▸ hend.length_le
      have hsome : headEnd (p ++ c :: chunk) = some (p.length + 1) := by
        refine headEnd_some.mpr ⟨by omega, by simp, by rw [htake]; exact hend, fun k hk => hold k (by omega)⟩
      rw [if_pos (Or.inl (hended.mp hend)), if_pos ⟨hended.mp hend, by omega⟩, hsome]
      refine ⟨fun n hn => ?_, nofun⟩
      obtain rfl := Option.some.inj hn
      exact ⟨hfour, (Int.ofNat_sub hfour).symm⟩
    · rw [if_neg (fun hc => hc.elim (fun hm => hend (hended.mpr hm)) hmax), happ]
      refine ih ⟨?_, ?_, ?_, ?_, by rw [hlen], ?_, by omega⟩
      · rw [List.reverse_append]
        exact hs.h1
      · rw [List.reverse_append]
        exact hs.h2
      · rw [List.reverse_append]
        exact hs.h3
      · rw [List.reverse_append]
        rfl
      · refine headEnd_none.mpr fun k _ hk => ?_
        rcases Nat.lt_or_ge k (p.length + 1) with hlt | hge
        · rw [ended_append p (by omega)]
          exact headEnd_none.mp hs.head k (by omega) (by omega)
        · rw [List.take_of_length_le (by omega)]
          exact hend

/-! ### One parse -/

variable (S : Setting)

/-- The payload of a whole frame at the front. -/
def payloadOf (bs : Bytes) (head len : Nat) : Option Bytes :=
  if S.client then some ((bs.drop head).take len)
  else (S.wsCall (WS_OP_MASK :: bs.take (head + len))).map fun answer => answer.drop head

/-- What the framer makes of a frame at the front. -/
def frameStep (s : Progress) (bs : Bytes) : Verdict Progress Event :=
  match wsHead bs.length (byteAt bs) (!S.client) s.cap with
  | .null => .more
  | .refused => .refuse s 0
  | .header fin opcode head len =>
    if bs.length < head + len then .more
    else
      match payloadOf S bs head len with
      | none => .refuse s (head + len)
      | some payload =>
        let t := handleFrame S s fin opcode payload
        if t.2 then .item [] t.1 (head + len) else .refuse t.1 (head + len)

/-- What the framer makes of the HTTP head. -/
def headStep (s : Progress) (bs : Bytes) : Verdict Progress Event :=
  match headEnd bs with
  | none => if bs.length > MAX_WS_HANDSHAKE then .refuse s 0 else .more
  | some n =>
    match S.upgrade (bs.take (n - 4)) with
    | none => .refuse s 0
    | some put => .item [] { s with opened := true, done := s.done ++ put.map Event.answer } n

def step (s : Progress) (bs : Bytes) : Verdict Progress Event :=
  if s.opened then frameStep S s bs else headStep S s bs

variable {S}

theorem payloadOf_append {bs : Bytes} {head len : Nat} (cs : Bytes) (h : head + len ≤ bs.length) :
    payloadOf S (bs ++ cs) head len = payloadOf S bs head len := by
  unfold payloadOf
  rw [List.drop_append_of_le_length (by omega), List.take_append_of_le_length (by rw [List.length_drop]; omega),
    List.take_append_of_le_length h]

/-- The frame's verdict by what the header says. -/
theorem frameStep_append {s : Progress} {bs : Bytes} (cs : Bytes)
    (h : (∃ s' n, frameStep S s bs = .refuse s' n) ∨ ∃ out s' n, frameStep S s bs = .item out s' n) :
    frameStep S s (bs ++ cs) = frameStep S s bs := by
  cases hh : wsHead bs.length (byteAt bs) (!S.client) s.cap with
  | null =>
    unfold frameStep at h
    simp [hh] at h
  | refused =>
    have happ := wsHead_append bs cs (!S.client) s.cap (by rw [hh]; nofun)
    unfold frameStep
    rw [happ, hh]
  | header fin opcode head len =>
    have happ := wsHead_append bs cs (!S.client) s.cap (by rw [hh]; nofun)
    by_cases hshort : bs.length < head + len
    · unfold frameStep at h
      simp [hh, hshort] at h
    · unfold frameStep
      rw [happ, hh]
      dsimp only
      rw [if_neg hshort, if_neg (show ¬ (bs ++ cs).length < head + len by rw [List.length_append]; omega),
        payloadOf_append cs (by omega)]

theorem frameStep_takes {s : Progress} {bs : Bytes} :
    (∀ s' n, frameStep S s bs = .refuse s' n → n ≤ bs.length) ∧
    ∀ out s' n, frameStep S s bs = .item out s' n → 2 ≤ n ∧ n ≤ bs.length := by
  unfold frameStep
  cases hh : wsHead bs.length (byteAt bs) (!S.client) s.cap with
  | null => exact ⟨nofun, nofun⟩
  | refused => exact ⟨fun s' n h => by cases h; exact Nat.zero_le _, nofun⟩
  | header fin opcode head len =>
    have hwidth := wsHead_width hh
    dsimp only
    split
    · exact ⟨nofun, nofun⟩
    · rename_i hroom
      split
      · exact ⟨fun s' n h => by cases h; omega, nofun⟩
      · split
        · exact ⟨nofun, fun out s' n h => by cases h; omega⟩
        · exact ⟨fun s' n h => by cases h; omega, nofun⟩

theorem headStep_append {s : Progress} {bs : Bytes} (cs : Bytes)
    (h : (∃ s' n, headStep S s bs = .refuse s' n) ∨ ∃ out s' n, headStep S s bs = .item out s' n) :
    headStep S s (bs ++ cs) = headStep S s bs := by
  unfold headStep at h ⊢
  cases hh : headEnd bs with
  | none =>
    rw [hh] at h
    dsimp only at h
    by_cases hlong : bs.length > MAX_WS_HANDSHAKE
    · have hnone : headEnd (bs ++ cs) = none := headEnd_none.mpr fun k hk _ => by
        rw [ended_append bs (by omega)]
        exact headEnd_none.mp hh k hk (by omega)
      rw [hnone]
      dsimp only
      rw [if_pos hlong, if_pos (by rw [List.length_append]; omega)]
    · simp [hlong] at h
  | some n =>
    obtain ⟨hmax, hlen, hend, hbefore⟩ := headEnd_some.mp hh
    have hsome : headEnd (bs ++ cs) = some n := headEnd_some.mpr
      ⟨hmax, by rw [List.length_append]; omega, (ended_append bs hlen).mpr hend,
        fun k hk => by rw [ended_append bs (by omega)]; exact hbefore k hk⟩
    rw [hsome]
    dsimp only
    rw [List.take_append_of_le_length (by omega)]

theorem headStep_takes {s : Progress} {bs : Bytes} :
    (∀ s' n, headStep S s bs = .refuse s' n → n ≤ bs.length) ∧
    ∀ out s' n, headStep S s bs = .item out s' n → 4 ≤ n ∧ n ≤ bs.length := by
  unfold headStep
  cases hh : headEnd bs with
  | none =>
    dsimp only
    split
    · exact ⟨fun s' n h => by cases h; exact Nat.zero_le _, nofun⟩
    · exact ⟨nofun, nofun⟩
  | some n =>
    obtain ⟨-, hlen, hend, -⟩ := headEnd_some.mp hh
    have hfour := hend.length_le
    rw [List.length_take_of_le hlen] at hfour
    dsimp only
    split
    · exact ⟨fun s' n h => by cases h; exact Nat.zero_le _, nofun⟩
    · exact ⟨nofun, fun out s' n h => by cases h; exact ⟨hfour, hlen⟩⟩

theorem step_opened {s : Progress} (h : s.opened = true) (bs : Bytes) : step S s bs = frameStep S s bs :=
  if_pos h

theorem step_closed {s : Progress} (h : s.opened = false) (bs : Bytes) : step S s bs = headStep S s bs :=
  if_neg (by rw [h]; decide)

theorem step_steady (S : Setting) : Steady (step S) where
  item {s bs out s' n} h := by
    cases ho : s.opened with
    | true =>
      rw [step_opened ho] at h
      obtain ⟨htwo, hn⟩ := frameStep_takes.2 out s' n h
      refine ⟨by omega, hn, fun cs => ?_⟩
      rw [step_opened ho, frameStep_append cs (Or.inr ⟨_, _, _, h⟩), h]
    | false =>
      rw [step_closed ho] at h
      obtain ⟨hfour, hn⟩ := headStep_takes.2 out s' n h
      refine ⟨by omega, hn, fun cs => ?_⟩
      rw [step_closed ho, headStep_append cs (Or.inr ⟨_, _, _, h⟩), h]
  refuse {s bs s' n} h := by
    cases ho : s.opened with
    | true =>
      rw [step_opened ho] at h
      refine ⟨frameStep_takes.1 s' n h, fun cs => ?_⟩
      rw [step_opened ho, frameStep_append cs (Or.inl ⟨_, _, h⟩), h]
    | false =>
      rw [step_closed ho] at h
      refine ⟨headStep_takes.1 s' n h, fun cs => ?_⟩
      rw [step_closed ho, headStep_append cs (Or.inl ⟨_, _, h⟩), h]

/-! ### The framer follows it -/

namespace WsFramer

/-- A framer ended where a parse did; what is left in its buffer matters where it goes on. -/
structure Follows (r : WsFramer × Bool) (R : Result Progress Event UInt8) : Prop where
  ok : r.2 = R.ok
  progress : r.1.progress = R.state
  contents : R.ok = true → r.1.parts.contents = R.rest

theorem takeFrame_spec (p : Queue) {head len : Nat} (h : head + len ≤ p.contents.length) :
    (takeFrame S p head len).1.contents = p.contents.drop (head + len) ∧
    (takeFrame S p head len).2 = payloadOf S p.contents head len := by
  unfold takeFrame payloadOf
  cases hc : S.client with
  | true =>
    have htake := p.take_contents (n := head) (by omega)
    obtain ⟨hcontents, hcopy, -⟩ := (p.take head).takeCopy_spec (n := len)
      (by rw [htake, List.length_drop]; omega) 0
    rw [htake] at hcontents hcopy
    exact ⟨by simpa using hcontents, by simpa using hcopy⟩
  | false =>
    obtain ⟨hcontents, hcopy, -⟩ := p.takeCopy_spec h 1
    refine ⟨by simpa using hcontents, ?_⟩
    simp only [Bool.false_eq_true, if_false]
    rw [hcopy]
    rfl

theorem dispatch_opened (s : Progress) (opcode : Nat) (payload : Bytes) :
    (dispatch S s opcode payload).1.opened = s.opened := by
  unfold dispatch
  split_ifs <;> rfl

theorem handleFrame_opened (s : Progress) (fin : Bool) (opcode : Nat) (payload : Bytes) :
    (handleFrame S s fin opcode payload).1.opened = s.opened := by
  unfold handleFrame
  dsimp only
  split
  · split
    · rfl
    · split_ifs
      · rfl
      · exact dispatch_opened _ _ _
      · rfl
  · split_ifs
    · rfl
    · rfl
    · rfl
    · exact dispatch_opened _ _ _

theorem frames_follows (fuel : Nat) {s : WsFramer} (ho : s.progress.opened = true) :
    Follows (frames S fuel s) (Incremental.run (step S) fuel s.progress s.parts.contents) ∧
    (frames S fuel s).1.progress.opened = true := by
  induction fuel generalizing s with
  | zero => exact ⟨⟨rfl, rfl, fun _ => rfl⟩, ho⟩
  | succ fuel ih =>
    have hhead : wsHead s.parts.parts.bytes (s.parts.parts.byteAt s.parts.heap) (!S.client) s.progress.cap =
        wsHead s.parts.contents.length (byteAt s.parts.contents) (!S.client) s.progress.cap := by
      rw [s.parts.bytes_eq, show s.parts.parts.byteAt s.parts.heap = byteAt s.parts.contents from
        funext s.parts.byteAt_eq]
    unfold frames Incremental.run
    rw [step_opened ho]
    unfold frameStep
    dsimp only
    rw [hhead]
    cases wsHead s.parts.contents.length (byteAt s.parts.contents) (!S.client) s.progress.cap with
    | null => exact ⟨⟨rfl, rfl, fun _ => rfl⟩, ho⟩
    | refused => exact ⟨⟨rfl, rfl, fun _ => rfl⟩, ho⟩
    | header fin opcode head len =>
      dsimp only
      rw [s.parts.bytes_eq]
      by_cases hshort : s.parts.contents.length < head + len
      · rw [if_pos hshort, if_pos hshort]
        exact ⟨⟨rfl, rfl, fun _ => rfl⟩, ho⟩
      · obtain ⟨hcontents, hpayload⟩ := takeFrame_spec (S := S) s.parts (Nat.not_lt.mp hshort)
        rw [if_neg hshort, if_neg hshort, hpayload]
        cases payloadOf S s.parts.contents head len with
        | none => exact ⟨⟨rfl, rfl, fun hn => (by cases hn)⟩, ho⟩
        | some payload =>
          have hopened := handleFrame_opened (S := S) s.progress fin opcode payload
          dsimp only
          generalize handleFrame S s.progress fin opcode payload = t at hopened ⊢
          obtain ⟨next, good⟩ := t
          cases good with
          | false => exact ⟨⟨rfl, rfl, fun hn => (by cases hn)⟩, hopened.trans ho⟩
          | true =>
            have hrest := ih (s := ⟨(takeFrame S s.parts head len).1, s.scan, next⟩) (hopened.trans ho)
            rw [hcontents] at hrest
            exact ⟨⟨hrest.1.ok, hrest.1.progress, hrest.1.contents⟩, hrest.2⟩

/-- Before the upgrade the scan has seen what is buffered. -/
def Fits (s : WsFramer) : Prop := s.progress.opened = false → s.scan.Saw s.parts.contents

theorem new_fits : new.Fits := fun _ => Scan.new_saw

/-- A read is one parse of what was left and the chunk. -/
theorem read_follows {s : WsFramer} (hf : s.Fits) (chunk : Bytes) :
    Follows (read S s chunk) (Incremental.parse (step S) s.progress (s.parts.contents ++ chunk)) ∧
    ((read S s chunk).2 = true → (read S s chunk).1.Fits) := by
  unfold read
  cases ho : s.progress.opened with
  | true =>
    obtain ⟨hfollow, hopen⟩ := frames_follows (S := S) ((s.parts.push chunk).parts.bytes + 1)
      (s := { s with parts := s.parts.push chunk }) ho
    rw [if_pos rfl]
    refine ⟨?_, fun _ hc => absurd (hopen.symm.trans hc) (by decide)⟩
    unfold Incremental.parse
    rw [← s.parts.push_contents, ← Queue.bytes_eq]
    exact hfollow
  | false =>
    obtain ⟨hsome, hnone⟩ := scanHead_spec (hf ho) chunk
    rw [if_neg (by decide), Incremental.parse_step (step_steady S), step_closed ho]
    unfold headStep
    cases hh : headEnd (s.parts.contents ++ chunk) with
    | none =>
      rcases hnone hh with ⟨hlong, hscan⟩ | ⟨hroom, hscan, hsaw⟩
      · dsimp only
        rw [if_pos hlong, hscan, if_pos rfl]
        exact ⟨⟨rfl, rfl, nofun⟩, nofun⟩
      · dsimp only
        rw [if_neg (Nat.not_lt.mpr hroom), hscan, if_neg (by decide), if_pos (by decide)]
        refine ⟨⟨rfl, rfl, fun _ => s.parts.push_contents chunk⟩, fun _ _ => ?_⟩
        rw [s.parts.push_contents]
        exact hsaw
    | some n =>
      obtain ⟨hfour, hscan⟩ := hsome n hh
      obtain ⟨-, hlen, -⟩ := headEnd_some.mp hh
      dsimp only
      rw [hscan, if_neg (by omega), if_neg (by omega), Int.toNat_natCast, Queue.peek_eq, s.parts.push_contents,
        show n - 4 + 4 = n by omega]
      cases S.upgrade ((s.parts.contents ++ chunk).take (n - 4)) with
      | none => exact ⟨⟨rfl, rfl, nofun⟩, nofun⟩
      | some put =>
        have htake := (s.parts.push chunk).take_contents (n := n) (by rw [s.parts.push_contents]; exact hlen)
        rw [s.parts.push_contents] at htake
        obtain ⟨hfollow, hopen⟩ := frames_follows (S := S) (((s.parts.push chunk).take n).parts.bytes + 1)
          (s := ⟨(s.parts.push chunk).take n, (scanHead s.scan chunk).1,
            { s.progress with opened := true, done := s.progress.done ++ put.map Event.answer }⟩) rfl
        refine ⟨?_, fun _ hc => absurd (hopen.symm.trans hc) (by decide)⟩
        dsimp only at hfollow ⊢
        rw [htake, Queue.bytes_eq, htake] at hfollow
        rw [Queue.bytes_eq, htake]
        exact ⟨hfollow.ok, hfollow.progress, hfollow.contents⟩

/-- A run of pushes is the parser fed the same chunks. -/
theorem pushes_follows (chunks : List Bytes) {s : WsFramer} (hf : s.Fits) :
    Follows (pushes S s chunks) (Incremental.feed (step S) s.progress s.parts.contents chunks) := by
  induction chunks generalizing s with
  | nil => exact ⟨rfl, rfl, fun _ => rfl⟩
  | cons c cs ih =>
    obtain ⟨hone, hfits⟩ := read_follows (S := S) hf c
    unfold pushes Incremental.feed
    dsimp only
    generalize read S s c = r at hone hfits ⊢
    generalize Incremental.parse (step S) s.progress (s.parts.contents ++ c) = R at hone ⊢
    rw [← hone.ok]
    cases hok : r.2 with
    | false =>
      rw [if_neg (by decide), if_neg (by decide)]
      exact hone
    | true =>
      have hrest := ih (hfits hok)
      rw [hone.progress, hone.contents (hone.ok.symm.trans hok)] at hrest
      rw [if_pos rfl, if_pos rfl]
      exact ⟨hrest.ok, hrest.progress, hrest.contents⟩

/-- A new framer past any pushes is the parser on all they brought. -/
theorem pushes_new (chunks : List Bytes) :
    Follows (pushes S new chunks) (Incremental.parse (step S) Progress.new chunks.flatten) := by
  have hf := pushes_follows (S := S) chunks new_fits
  obtain ⟨-, hok, hstate, hrest, -⟩ := Incremental.feed_eq (step_steady S) Progress.new [] chunks (by
    rw [step_closed rfl]
    unfold headStep
    rw [Scan.new_saw.head]
    rfl)
  refine ⟨hf.ok.trans hok, hf.progress.trans hstate, fun h => ?_⟩
  exact (hf.contents (hok.trans h)).trans (hrest (hok.trans h))

end WsFramer

end SeedTransport.Framing
