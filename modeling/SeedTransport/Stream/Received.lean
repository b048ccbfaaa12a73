import SeedTransport.Lib.Runs
import SeedTransport.Stream.Net
import SeedTransport.Stream.Flow

set_option autoImplicit false

namespace SeedTransport.Stream

open Runs
open Ledger (Step Steps names_record names_sublist)

/-! The numbers a stream has received, as its ranges hold them and its acks name them. -/

theorem mem_denoted {ranges : List (Nat × Nat)} {x : Nat} : x ∈ denoted ranges ↔ names ranges x = true := by
  simp only [denoted, Set.mem_ofPred_eq, names, List.any_eq_true, decide_eq_true_eq]
  exact exists_congr fun r => and_congr_right fun _ => and_comm

/-! ### One number -/

/-- The tops after noting `pn` are `pn` and tops that were there. -/
theorem recordFrom_tops {pn : Nat} {ranges : List (Nat × Nat)} :
    ∀ q ∈ recordFrom pn ranges, q.1 = pn ∨ ∃ r ∈ ranges, q.1 = r.1 := by
  induction ranges with
  | nil =>
    intro q hq
    rw [recordFrom, List.mem_singleton] at hq
    exact Or.inl (by rw [hq])
  | cons r rest ih =>
    obtain ⟨hi, lo⟩ := r
    have hold (ps : List (Nat × Nat)) (hps : ps ⊆ (hi, lo) :: rest) :
        ∀ q ∈ ps, q.1 = pn ∨ ∃ r ∈ (hi, lo) :: rest, q.1 = r.1 := fun q hq => Or.inr ⟨q, hps hq, rfl⟩
    have hrest : rest ⊆ (hi, lo) :: rest := List.subset_cons_self _ _
    have htop (m : Nat) : (hi, m).1 = pn ∨ ∃ r ∈ (hi, lo) :: rest, (hi, m).1 = r.1 :=
      Or.inr ⟨(hi, lo), List.mem_cons_self, rfl⟩
    unfold recordFrom
    split_ifs with h1 h2 h3 h4
    · refine List.forall_mem_cons.mpr ⟨htop lo, fun q hq => ?_⟩
      rcases ih q hq with h | ⟨r, hr, h⟩
      · exact Or.inl h
      · exact Or.inr ⟨r, hrest hr, h⟩
    · exact List.forall_mem_cons.mpr ⟨Or.inl rfl, hold _ (List.Subset.refl _)⟩
    · exact List.forall_mem_cons.mpr ⟨Or.inl rfl, hold _ hrest⟩
    · cases rest with
      | nil => exact List.forall_mem_cons.mpr ⟨htop pn, List.forall_mem_nil _⟩
      | cons r rest =>
        simp only
        split_ifs with h5
        · exact List.forall_mem_cons.mpr
            ⟨htop r.2, hold _ (fun q hq => List.mem_cons_of_mem _ (List.mem_cons_of_mem _ hq))⟩
        · exact List.forall_mem_cons.mpr ⟨htop pn, hold _ hrest⟩
    · exact hold _ (List.Subset.refl _)

/-- Before the cut to `maxRanges`: the runs stay maximal, and hold just one number more. -/
theorem recordFrom_spec {pn : Nat} {ranges : List (Nat × Nat)} (h : Descending ranges) :
    Descending (recordFrom pn ranges) ∧ denoted (recordFrom pn ranges) = insert pn (denoted ranges) := by
  induction ranges with
  | nil =>
    refine ⟨.cons .nil (Nat.le_refl _) nofun, ?_⟩
    ext x
    rw [recordFrom, mem_denoted_cons, denoted_nil, Set.mem_insert_iff]
    simp only [Set.mem_empty_iff_false, or_false]
    omega
  | cons r rest ih =>
    obtain ⟨hi, lo⟩ := r
    obtain ⟨hle, habove⟩ := h.head
    simp only at hle habove
    obtain ⟨ihd, ihs⟩ := ih h.tail
    unfold recordFrom
    split_ifs with h1 h2 h3 h4
    · refine ⟨ihd.cons hle fun q hq => ?_, ?_⟩
      · rcases recordFrom_tops q hq with heq | ⟨r, hr, heq⟩
        · simp only
          omega
        · rw [heq]
          exact habove r hr
      · ext x
        simp only [mem_denoted_cons, ihs, Set.mem_insert_iff]
        tauto
    · refine ⟨h.cons (Nat.le_refl _) (List.forall_mem_cons.mpr ⟨by omega, fun q hq => ?_⟩), ?_⟩
      · have := habove q hq
        simp only
        omega
      · ext x
        simp only [mem_denoted_cons, Set.mem_insert_iff]
        refine or_congr_left ?_
        omega
    · refine ⟨h.tail.cons (by simp only; omega) habove, ?_⟩
      ext x
      simp only [mem_denoted_cons, Set.mem_insert_iff, ← or_assoc]
      refine or_congr_left ?_
      omega
    · cases rest with
      | nil =>
        refine ⟨.cons .nil (by simp only; omega) nofun, ?_⟩
        ext x
        simp only [mem_denoted_cons, denoted_nil, Set.mem_insert_iff, Set.mem_empty_iff_false, or_false]
        omega
      | cons r rest =>
        obtain ⟨hi', lo'⟩ := r
        obtain ⟨hle', habove'⟩ := h.tail.head
        have hgap : hi' + 1 < lo := habove (hi', lo') List.mem_cons_self
        simp only at hle' habove' ⊢
        split_ifs with h5
        · refine ⟨h.tail.tail.cons (by simp only; omega) habove', ?_⟩
          ext x
          simp only [mem_denoted_cons, Set.mem_insert_iff, ← or_assoc]
          refine or_congr_left ?_
          omega
        · refine ⟨h.tail.cons (by simp only; omega) (List.forall_mem_cons.mpr ⟨by simp only; omega, fun q hq => ?_⟩), ?_⟩
          · have := habove' q hq
            simp only
            omega
          · ext x
            simp only [mem_denoted_cons, Set.mem_insert_iff, ← or_assoc]
            refine or_congr_left (or_congr_left ?_)
            omega
    · refine ⟨h, ?_⟩
      ext x
      simp only [mem_denoted_cons, Set.mem_insert_iff, ← or_assoc]
      refine or_congr_left ?_
      omega

theorem record_descending {pn : Nat} {ranges : List (Nat × Nat)} (h : Descending ranges) :
    Descending (record ranges pn) := (recordFrom_spec h).1.sublist (List.take_sublist _ _)

theorem denoted_record {pn : Nat} {ranges : List (Nat × Nat)} (h : Descending ranges) :
    denoted (record ranges pn) = newest maxRanges (insert pn (denoted ranges)) := by
  rw [record, denoted_take (recordFrom_spec h).1, (recordFrom_spec h).2]

theorem record_length (ranges : List (Nat × Nat)) (pn : Nat) : (record ranges pn).length ≤ maxRanges :=
  List.length_take_le _ _

/-- A range that is dropped lies below the floor. -/
theorem dropBelow_keeps {floor x : Nat} {ranges : List (Nat × Nat)} (hx : names ranges x = true) (hf : floor ≤ x) :
    names (dropBelow floor ranges) x = true := by
  cases ranges with
  | nil => exact hx
  | cons r rest =>
    rw [← mem_denoted] at hx ⊢
    rw [dropBelow, mem_denoted_cons]
    refine (mem_denoted_cons.mp hx).imp_right fun ⟨q, hq, hlo, hhi⟩ => ⟨q, ?_, hlo, hhi⟩
    have hsplit := List.rdropWhile_append_rtakeWhile (p := fun x : Nat × Nat => decide (x.1 < floor)) (l := rest)
    rw [← hsplit] at hq
    rcases List.mem_append.mp hq with hq | hq
    · exact hq
    · have := List.mem_rtakeWhile_imp hq
      simp only [decide_eq_true_eq] at this
      omega

/-! ### Runs -/

/-- What changes the ranges: a number received, and a floor a chunk names. -/
inductive Arrival where
  | number (pn : Nat)
  | floor (least : Nat)

def Arrival.apply (ranges : List (Nat × Nat)) : Arrival → List (Nat × Nat)
  | number pn => record ranges pn
  | floor least => dropBelow least ranges

/-- The ranges after arrivals in any order. -/
def rangesAfter (as : List Arrival) : List (Nat × Nat) := as.foldl Arrival.apply []

/-- Ranges as `record` keeps them, of numbers all `got`. -/
structure Tracks (got : Nat → Prop) (ranges : List (Nat × Nat)) : Prop where
  descending : Descending ranges
  count : ranges.length ≤ maxRanges
  got : ∀ x, names ranges x = true → got x

theorem Tracks.init (got : Nat → Prop) : Tracks got [] := ⟨.nil, Nat.zero_le _, nofun⟩

theorem Tracks.mono {got got' : Nat → Prop} {ranges : List (Nat × Nat)} (h : Tracks got ranges)
    (hg : ∀ x, got x → got' x) : Tracks got' ranges :=
  ⟨h.descending, h.count, fun x hx => hg x (h.got x hx)⟩

theorem Tracks.record {got : Nat → Prop} {ranges : List (Nat × Nat)} (h : Tracks got ranges) {pn : Nat} (hp : got pn) :
    Tracks got (record ranges pn) where
  descending := record_descending h.descending
  count := record_length ranges pn
  got := fun x hx => by
    rcases names_record hx with hx | rfl
    · exact h.got x hx
    · exact hp

theorem Tracks.sublist {got : Nat → Prop} {rs ranges : List (Nat × Nat)} (h : Tracks got ranges)
    (hs : rs.Sublist ranges) : Tracks got rs :=
  ⟨h.descending.sublist hs, Nat.le_trans hs.length_le h.count, fun x hx => h.got x (names_sublist hs hx)⟩

theorem Tracks.arrivals (as : List Arrival) {ranges : List (Nat × Nat)}
    (h : Tracks (fun x => .number x ∈ as) ranges) (bs : List Arrival) (hb : bs ⊆ as) :
    Tracks (fun x => .number x ∈ as) (bs.foldl Arrival.apply ranges) := by
  induction bs generalizing ranges with
  | nil => exact h
  | cons b bs ih =>
    obtain ⟨hb, hbs⟩ := List.cons_subset.mp hb
    refine ih ?_ hbs
    cases b with
    | number pn => exact h.record hb
    | floor least => exact h.sublist (UdpStream.dropBelow_sublist least ranges)

/-- The number that a packet's arrival lets a stream note. -/
def Packet.numbers : Packet → Nat → Prop
  | .data pn _ _ _, x => x = pn
  | .probe pn, x => x = pn
  | _, _ => False

/-- One step of the books notes only the number of its packet. -/
theorem Tracks.step {got : Nat → Prop} {input : Option Packet} {l l' : Ledger} (hs : Step input l l')
    (hi : ∀ p x, input = some p → p.numbers x → got x) (h : Tracks got l.ranges) : Tracks got l'.ranges := by
  cases hs with
  | note pn hp => exact h.record (hi _ _ hp rfl)
  | arriveInOrder pn o floor bs hg hp => exact h.record (hi _ _ hp rfl)
  | arriveAhead pn o floor bs hg hp => exact h.record (hi _ _ hp rfl)
  | arriveStale pn o floor bs hg hp => exact h.record (hi _ _ hp rfl)
  | forget ranges hsub => exact h.sublist hsub
  | _ => exact h

theorem Tracks.steps {got : Nat → Prop} {input : Option Packet} {l l' : Ledger} (hs : Steps input l l')
    (hi : ∀ p x, input = some p → p.numbers x → got x) (h : Tracks got l.ranges) : Tracks got l'.ranges := by
  induction hs with
  | refl => exact h
  | tail _ hstep ih => exact ih.step hstep hi

/-- What happens to a stream. -/
inductive Happening where
  | call (now : ℚ) (c : Call)
  | packet (now : ℚ) (p : Bytes)

namespace UdpStream

def happen (s : UdpStream) : Happening → UdpStream
  | .call now c => s.call now c
  | .packet now p => s.receive now p

/-- The stream after a run from its start. -/
def after (hs : List Happening) : UdpStream := hs.foldl happen {}

end UdpStream

/-- A packet of the run brought number `x`. -/
def Brought (hs : List Happening) (x : Nat) : Prop :=
  ∃ now p q, .packet now p ∈ hs ∧ decode p = some q ∧ q.numbers x

theorem readU48BE_lt (p : Bytes) (off : Nat) : readU48BE p off < 2 ^ 48 := by
  have hbyte (i : Nat) : byteAt p i < 2 ^ 8 := (p.getD i 0).toNat_lt
  have h0 := hbyte off
  have h1 := hbyte (off + 1)
  have h2 := hbyte (off + 2)
  have h3 := hbyte (off + 3)
  have h4 := hbyte (off + 4)
  have h5 := hbyte (off + 5)
  unfold readU48BE
  omega

theorem decode_numbers {p : Bytes} {q : Packet} {x : Nat} (h : decode p = some q) (hq : q.numbers x) : x < 2 ^ 48 := by
  unfold decode at h
  simp only at h
  split_ifs at h <;> cases h
  · rw [show x = _ from hq]
    exact readU48BE_lt _ _
  · exact hq.elim
  · rw [show x = _ from hq]
    exact readU48BE_lt _ _
  · exact hq.elim

theorem after_tracks (hs : List Happening) :
    Sane (UdpStream.after hs) ∧ Tracks (fun x => Brought hs x ∧ x < 2 ^ 48) (UdpStream.after hs).rx.ranges := by
  suffices ∀ (bs : List Happening) (s : UdpStream), bs ⊆ hs → Sane s →
      Tracks (fun x => Brought hs x ∧ x < 2 ^ 48) s.rx.ranges →
      Sane (bs.foldl UdpStream.happen s) ∧
        Tracks (fun x => Brought hs x ∧ x < 2 ^ 48) (bs.foldl UdpStream.happen s).rx.ranges from
    this hs {} (List.Subset.refl _) Sane.init (.init _)
  intro bs
  induction bs with
  | nil => exact fun s _ hsane h => ⟨hsane, h⟩
  | cons b bs ih =>
    intro s hb hsane h
    obtain ⟨hb, hbs⟩ := List.cons_subset.mp hb
    cases b with
    | call now c =>
      exact ih _ hbs (hsane.call now c) (h.steps (s.call_steps now c hsane.fair.tx) fun _ _ hnone => nomatch hnone)
    | packet now p =>
      refine ih _ hbs (hsane.receive now p) (h.steps (s.receive_steps now p hsane.fair.tx hsane.quiet) ?_)
      exact fun q x hq hx => ⟨⟨now, p, q, hb, hq, hx⟩, decode_numbers hq hx⟩

/-! ### Acks -/

/-- Whether an ACK's `count` ranges name packet `pn`, as the peer reads them off the wire. -/
def namesIn (p : Bytes) (count pn : Nat) : Bool :=
  (List.range count).any fun i =>
    decide (pn ≤ readU48BE p (pathHeader + 9 + 12 * i)) && decide (pn ≥ readU48BE p (pathHeader + 15 + 12 * i))

theorem namesIn_eq (p : Bytes) (count pn : Nat) : namesIn p count pn = names (readRanges p count) pn := by
  rw [namesIn, names, readRanges, List.any_map]
  congr 1
  funext i
  simp

theorem decode_ack {p : Bytes} {credit delay : Nat} {ranges : List (Nat × Nat)}
    (h : decode p = some (.ack credit delay ranges)) : readRanges p (byteAt p (pathHeader + 8)) = ranges := by
  unfold decode at h
  simp only at h
  split_ifs at h <;> cases h
  rfl

/-- An ack of ranges whose numbers fit their fields names what the ranges do. -/
theorem ack_names {ranges : List (Nat × Nat)} (hcount : ranges.length < 256)
    (hfit : ∀ r ∈ ranges, r.1 < 2 ^ 48 ∧ r.2 < 2 ^ 48) {p : Packet} (hp : UdpStream.Says ranges p) {token : Bytes}
    (ht : token.length = 8) (x : Nat) :
    namesIn (stamp token (encode p)) (byteAt (stamp token (encode p)) (pathHeader + 8)) x = names ranges x := by
  obtain ⟨credit, delay, rfl⟩ := hp
  have hd := decode_stamp_encode token ht (.ack credit delay ranges) hcount
  have hcut : ranges.map (fun r => (r.1 % 2 ^ 48, r.2 % 2 ^ 48)) = ranges := by
    conv_rhs => rw [← List.map_id ranges]
    refine List.map_congr_left fun r hr => ?_
    rw [Nat.mod_eq_of_lt (hfit r hr).1, Nat.mod_eq_of_lt (hfit r hr).2]
    rfl
  rw [namesIn_eq, decode_ack hd, hcut]

theorem sendAck_says (s : UdpStream) (now : ℚ) :
    ∃ ps, (∀ p ∈ ps, UdpStream.Says s.rx.ranges p) ∧ (s.sendAck now).emitted = s.emitted ++ ps ∧
      (ps = [] → ¬ s.out ∨ s.gone) := by
  unfold UdpStream.sendAck
  split
  · exact ⟨[], List.forall_mem_nil _, (List.append_nil _).symm, fun _ => ‹_›⟩
  · dsimp only
    split
    · refine ⟨List.replicate 3 (.ack (s.rx.taken + s.rx.credit)
        (UdpStream.delayField (now - s.rx.largestAt)) s.rx.ranges), ?_, ?_, fun hn => absurd hn (by simp)⟩
      · intro p hp
        exact ⟨_, _, List.eq_of_mem_replicate hp⟩
      · simp [UdpStream.emit, List.replicate]
    · refine ⟨[.ack (s.rx.taken + s.rx.credit)
        (UdpStream.delayField (now - s.rx.largestAt)) s.rx.ranges], ?_, rfl, fun hn => absurd hn (by simp)⟩
      intro p hp
      exact ⟨_, _, List.mem_singleton.mp hp⟩

/-- After any numbers and floors, the ranges are at most `maxRanges` maximal runs, newest first, of
numbers received. The next number adds itself, and of the maximal runs then there the newest stay; a
floor takes away only what lies below it. Such are the ranges of a stream after any run, and each ack
it sends is read as naming just what they hold. -/
theorem received_numbers :
    (∀ as : List Arrival, Descending (rangesAfter as) ∧ (rangesAfter as).length ≤ maxRanges ∧
      (∀ x ∈ denoted (rangesAfter as), .number x ∈ as) ∧
      (∀ pn, denoted (record (rangesAfter as) pn) = newest maxRanges (insert pn (denoted (rangesAfter as)))) ∧
      (∀ floor, denoted (dropBelow floor (rangesAfter as)) ⊆ denoted (rangesAfter as) ∧
        ∀ x ∈ denoted (rangesAfter as), x ∉ denoted (dropBelow floor (rangesAfter as)) → x < floor)) ∧
    (∀ hs : List Happening, Descending (UdpStream.after hs).rx.ranges ∧
      (UdpStream.after hs).rx.ranges.length ≤ maxRanges ∧
      (∀ x ∈ denoted (UdpStream.after hs).rx.ranges, Brought hs x) ∧
      (∀ now, ∃ ps, ((UdpStream.after hs).sendAck now).emitted = (UdpStream.after hs).emitted ++ ps ∧
        (ps = [] → ¬ (UdpStream.after hs).out ∨ (UdpStream.after hs).gone) ∧
        ∀ p ∈ ps, ∀ token : Bytes, token.length = 8 → ∀ x,
          namesIn (stamp token (encode p)) (byteAt (stamp token (encode p)) (pathHeader + 8)) x = true ↔
            x ∈ denoted (UdpStream.after hs).rx.ranges)) := by
  refine ⟨fun as => ?_, fun hs => ?_⟩
  · have h : Tracks (fun x => .number x ∈ as) (rangesAfter as) := Tracks.arrivals as (.init _) as (List.Subset.refl _)
    refine ⟨h.descending, h.count, fun x hx => h.got x (mem_denoted.mp hx),
      fun pn => denoted_record h.descending, fun floor => ⟨fun x hx => ?_, fun x hx hnot => ?_⟩⟩
    · exact mem_denoted.mpr (names_sublist (UdpStream.dropBelow_sublist floor _) (mem_denoted.mp hx))
    · by_contra hf
      exact hnot (mem_denoted.mpr (dropBelow_keeps (mem_denoted.mp hx) (Nat.not_lt.mp hf)))
  · obtain ⟨-, h⟩ := after_tracks hs
    generalize UdpStream.after hs = s at h ⊢
    refine ⟨h.descending, h.count, fun x hx => (h.got x (mem_denoted.mp hx)).1, fun now => ?_⟩
    obtain ⟨ps, hps, hemitted, hnone⟩ := sendAck_says s now
    refine ⟨ps, hemitted, hnone, fun p hp token ht x => ?_⟩
    have hfit : ∀ r ∈ s.rx.ranges, r.1 < 2 ^ 48 ∧ r.2 < 2 ^ 48 := fun r hr => by
      have hle := h.descending.ordered r hr
      have h1 := (h.got r.1 (mem_denoted.mp ⟨r, hr, hle, Nat.le_refl _⟩)).2
      omega
    have hcount : s.rx.ranges.length < 256 := Nat.lt_of_le_of_lt h.count (by decide)
    rw [ack_names hcount hfit (hps p hp) ht x, mem_denoted]

end SeedTransport.Stream
