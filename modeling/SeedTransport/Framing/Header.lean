import SeedTransport.Ws.Masking

set_option autoImplicit false

namespace SeedTransport.Framing

/-! Frame headers of RFC 6455, as a framer writes and reads them (`framing.js`). -/

open Ws (SCRATCH_SIZE OP_MASK masked masking maskedHead)

def WS_OP_MASK : UInt8 := 1

def WS_OP_CONT : Nat := 0x0

def WS_OP_BINARY : Nat := 0x2

def WS_OP_CLOSE : Nat := 0x8

def WS_OP_PING : Nat := 0x9

def WS_OP_PONG : Nat := 0xa

/-- One frame with FIN set. With a `key` it is a masking request, its payload still clear. -/
def wsFrame (opcode : Nat) (payload : Bytes) (key : Option Bytes) : Bytes :=
  let n := payload.length
  let ext := if n < 126 then 0 else if n < 65536 then 2 else 8
  let first := UInt8.ofNat (0x80 ||| opcode)
  let second := UInt8.ofNat ((if key.isSome then 0x80 else 0) |||
    (if ext = 0 then n else if ext = 2 then 126 else 127))
  let length := if ext = 2 then writeU16BE n else if ext = 8 then [0, 0, 0, 0] ++ writeU32BE n else []
  match key with
  | none => first :: second :: length ++ payload
  | some key => WS_OP_MASK :: first :: second :: length ++ key ++ payload

/-- What `wsHead` answers. -/
inductive Head
  | null
  | refused
  | header (fin : Bool) (opcode head len : Nat)
  deriving DecidableEq

/-- The next header, of a buffer of `bytes` bytes. -/
def wsHead (bytes : Nat) (byteAt : Nat → Nat) (masked : Bool) (cap : Nat) : Head :=
  if bytes < 2 then .null
  else
    let b0 := byteAt 0
    let b1 := byteAt 1
    let fin := decide (b0 &&& 0x80 ≠ 0)
    let opcode := b0 &&& 0x0f
    let len := b1 &&& 0x7f
    let key := if masked then 4 else 0
    if b0 &&& 0x70 ≠ 0 ∨ decide (b1 &&& 0x80 ≠ 0) ≠ masked then .refused
    else if opcode > WS_OP_BINARY ∧ (opcode < WS_OP_CLOSE ∨ opcode > WS_OP_PONG) then .refused
    else if opcode ≥ WS_OP_CLOSE ∧ (fin = false ∨ len > 125 ∨ opcode = WS_OP_CLOSE ∧ len = 1) then .refused
    else if len = 126 then
      if bytes < 4 then .null
      else
        let len := byteAt 2 * 2 ^ 8 + byteAt 3
        if len < 126 then .refused
        else if len > cap then .refused
        else .header fin opcode (4 + key) len
    else if len = 127 then
      if bytes < 10 then .null
      else if byteAt 2 ||| byteAt 3 ||| byteAt 4 ||| byteAt 5 ≠ 0 then .refused
      else
        let len := byteAt 6 * 2 ^ 24 + byteAt 7 * 2 ^ 16 + byteAt 8 * 2 ^ 8 + byteAt 9
        if len < 65536 then .refused
        else if len > cap then .refused
        else .header fin opcode (10 + key) len
    else if len > cap then .refused
    else .header fin opcode (2 + key) len

/-! ### The header of RFC 6455 §5.2 -/

/-- The first two octets allowed towards a role: towards a server the payload is masked. -/
structure Permitted (masked : Bool) (b0 b1 : Nat) : Prop where
  reserved : b0 / 16 % 8 = 0
  opcode : b0 % 16 ∈ [0, 1, 2, 8, 9, 10]
  mask : decide (128 ≤ b1) = masked
  control : 8 ≤ b0 % 16 → 128 ≤ b0 ∧ b1 % 128 ≤ 125
  close : b0 % 16 = 8 → b1 % 128 ≠ 1

instance (masked : Bool) (b0 b1 : Nat) : Decidable (Permitted masked b0 b1) :=
  decidable_of_iff (b0 / 16 % 8 = 0 ∧ b0 % 16 ∈ [0, 1, 2, 8, 9, 10] ∧ decide (128 ≤ b1) = masked ∧
      (8 ≤ b0 % 16 → 128 ≤ b0 ∧ b1 % 128 ≤ 125) ∧ (b0 % 16 = 8 → b1 % 128 ≠ 1))
    ⟨fun h => ⟨h.1, h.2.1, h.2.2.1, h.2.2.2.1, h.2.2.2.2⟩, fun h => ⟨h.1, h.2, h.3, h.4, h.5⟩⟩

/-- Octets of extended payload length. -/
def extended (b1 : Nat) : Nat := if b1 % 128 = 126 then 2 else if b1 % 128 = 127 then 8 else 0

/-- A number in network byte order. -/
def network (bytes : Bytes) : Nat := bytes.foldl (fun n b => n * 256 + b.toNat) 0

/-- The payload length a header states. -/
def payloadLen (p : Bytes) : Nat :=
  if extended (byteAt p 1) = 0 then byteAt p 1 % 128
  else network ((p.drop 2).take (extended (byteAt p 1)))

/-- The length takes the shortest form it has. -/
def Shortest (p : Bytes) : Prop :=
  (extended (byteAt p 1) = 2 → 126 ≤ payloadLen p) ∧ (extended (byteAt p 1) = 8 → 65536 ≤ payloadLen p)

instance (p : Bytes) : Decidable (Shortest p) := instDecidableAnd

/-- The header at the front of `p`, as RFC 6455 has it read by that role under a cap. -/
def rfcHead (p : Bytes) (masked : Bool) (cap : Nat) : Head :=
  if p.length < 2 then .null
  else if ¬ Permitted masked (byteAt p 0) (byteAt p 1) then .refused
  else if p.length < 2 + extended (byteAt p 1) then .null
  else if ¬ Shortest p ∨ min cap (2 ^ 32 - 1) < payloadLen p then .refused
  else .header (decide (128 ≤ byteAt p 0)) (byteAt p 0 % 16)
    (2 + extended (byteAt p 1) + if masked then 4 else 0) (payloadLen p)

/-- The bit tests of `wsHead`, in arithmetic. -/
theorem octet_bits {b : Nat} (h : b < 256) : (b &&& 0x80 ≠ 0 ↔ 128 ≤ b) ∧ (b &&& 0x70 ≠ 0 ↔ b / 16 % 8 ≠ 0) ∧
    b &&& 0x0f = b % 16 ∧ b &&& 0x7f = b % 128 := by
  have hall : ∀ b : Fin 256, (b.val &&& 0x80 ≠ 0 ↔ 128 ≤ b.val) ∧ (b.val &&& 0x70 ≠ 0 ↔ b.val / 16 % 8 ≠ 0) ∧
      b.val &&& 0x0f = b.val % 16 ∧ b.val &&& 0x7f = b.val % 128 := by decide +kernel
  exact hall ⟨b, h⟩

theorem byteAt_lt (p : Bytes) (i : Nat) : byteAt p i < 256 := (p.getD i 0).toNat_lt

theorem network_two (p : Bytes) (h : 4 ≤ p.length) :
    network ((p.drop 2).take 2) = byteAt p 2 * 2 ^ 8 + byteAt p 3 := by
  obtain ⟨a, b, c, d, q, rfl⟩ : ∃ a b c d q, p = a :: b :: c :: d :: q := by
    match p, h with
    | a :: b :: c :: d :: q, _ => exact ⟨a, b, c, d, q, rfl⟩
  simp [network, byteAt]

theorem network_eight (p : Bytes) (h : 10 ≤ p.length) :
    network ((p.drop 2).take 8) =
      (byteAt p 2 * 2 ^ 24 + byteAt p 3 * 2 ^ 16 + byteAt p 4 * 2 ^ 8 + byteAt p 5) * 2 ^ 32 +
      (byteAt p 6 * 2 ^ 24 + byteAt p 7 * 2 ^ 16 + byteAt p 8 * 2 ^ 8 + byteAt p 9) := by
  obtain ⟨a, b, c, d, e, f, g, i, j, k, q, rfl⟩ :
      ∃ a b c d e f g i j k q, p = a :: b :: c :: d :: e :: f :: g :: i :: j :: k :: q := by
    match p, h with
    | a :: b :: c :: d :: e :: f :: g :: i :: j :: k :: q, _ => exact ⟨a, b, c, d, e, f, g, i, j, k, q, rfl⟩
  simp [network, byteAt]
  omega

/-- The three tests of `wsHead` on the first two bytes pass for a permitted pair and no other. -/
theorem permitted_iff (masked : Bool) {b0 b1 : Nat} (h₀ : b0 < 256) (h₁ : b1 < 256) :
    Permitted masked b0 b1 ↔ ¬ (b0 &&& 0x70 ≠ 0 ∨ decide (b1 &&& 0x80 ≠ 0) ≠ masked) ∧
      ¬ (b0 &&& 0x0f > WS_OP_BINARY ∧ (b0 &&& 0x0f < WS_OP_CLOSE ∨ b0 &&& 0x0f > WS_OP_PONG)) ∧
      ¬ (b0 &&& 0x0f ≥ WS_OP_CLOSE ∧ (decide (b0 &&& 0x80 ≠ 0) = false ∨ b1 &&& 0x7f > 125 ∨
        b0 &&& 0x0f = WS_OP_CLOSE ∧ b1 &&& 0x7f = 1)) := by
  obtain ⟨hfin, hres, hop, _⟩ := octet_bits h₀
  obtain ⟨hmask, _, _, hlen⟩ := octet_bits h₁
  simp only [hfin, hres, hop, hmask, hlen, WS_OP_BINARY, WS_OP_CLOSE, WS_OP_PONG, decide_eq_false_iff_not]
  constructor
  · intro h
    have hops := h.opcode
    have hctl := h.control
    have hclose := h.close
    have hzero := h.reserved
    have hm := h.mask
    simp only [List.mem_cons, List.not_mem_nil, or_false] at hops
    refine ⟨fun hc => hc.elim (fun h => h hzero) (fun h => h hm), by omega, by omega⟩
  · rintro ⟨hc, hops, hctl⟩
    have hmod : b0 % 16 < 16 := Nat.mod_lt _ (by omega)
    refine ⟨by omega, ?_, ?_, by omega, by omega⟩
    · simp only [List.mem_cons, List.not_mem_nil, or_false]
      omega
    · by_contra hne
      exact hc (Or.inr hne)

/-- `wsHead` reads the header of RFC 6455. -/
theorem wsHead_eq (p : Bytes) (masked : Bool) (cap : Nat) :
    wsHead p.length (byteAt p) masked cap = rfcHead p masked cap := by
  unfold wsHead rfcHead
  dsimp only
  by_cases htwo : p.length < 2
  · rw [if_pos htwo, if_pos htwo]
  rw [if_neg htwo, if_neg htwo]
  obtain ⟨hfin, _, hop, _⟩ := octet_bits (byteAt_lt p 0)
  obtain ⟨_, _, _, hlen⟩ := octet_bits (byteAt_lt p 1)
  have hiff := permitted_iff masked (byteAt_lt p 0) (byteAt_lt p 1)
  by_cases hper : Permitted masked (byteAt p 0) (byteAt p 1)
  · obtain ⟨h₁, h₂, h₃⟩ := hiff.mp hper
    rw [if_neg h₁, if_neg h₂, if_neg h₃, if_neg (not_not_intro hper)]
    simp only [hfin, hop, hlen]
    have h2 := byteAt_lt p 2
    have h3 := byteAt_lt p 3
    have hok : Shortest p → ¬ payloadLen p > cap → payloadLen p < 2 ^ 32 →
        ¬ (¬ Shortest p ∨ min cap (2 ^ 32 - 1) < payloadLen p) :=
      fun hs _ _ h => h.elim (fun hn => hn hs) (fun hm => by omega)
    by_cases h126 : byteAt p 1 % 128 = 126
    · have hext : extended (byteAt p 1) = 2 := if_pos h126
      rw [if_pos h126, hext]
      by_cases hfour : p.length < 4
      · rw [if_pos hfour, if_pos hfour]
      have hpay : payloadLen p = byteAt p 2 * 2 ^ 8 + byteAt p 3 := by
        rw [payloadLen, hext, if_neg (by omega), network_two p (by omega)]
      have hshort : Shortest p ↔ 126 ≤ payloadLen p := by simp [Shortest, hext]
      rw [if_neg hfour, if_neg hfour, ← hpay]
      by_cases hlow : payloadLen p < 126
      · rw [if_pos hlow, if_pos (Or.inl fun h => absurd (hshort.mp h) (by omega))]
      by_cases hcap : payloadLen p > cap
      · rw [if_neg hlow, if_pos hcap, if_pos (Or.inr (by omega))]
      · rw [if_neg hlow, if_neg hcap, if_neg (hok (hshort.mpr (by omega)) hcap (by omega))]
    rw [if_neg h126]
    by_cases h127 : byteAt p 1 % 128 = 127
    · have hext : extended (byteAt p 1) = 8 := by
        unfold extended
        rw [if_neg h126, if_pos h127]
      rw [if_pos h127, hext]
      by_cases hten : p.length < 10
      · rw [if_pos hten, if_pos hten]
      have hpay : payloadLen p = network ((p.drop 2).take 8) := by
        rw [payloadLen, hext, if_neg (by omega)]
      rw [network_eight p (by omega)] at hpay
      have hshort : Shortest p ↔ 65536 ≤ payloadLen p := by simp [Shortest, hext]
      rw [if_neg hten, if_neg hten]
      by_cases hhigh : byteAt p 2 ||| byteAt p 3 ||| byteAt p 4 ||| byteAt p 5 ≠ 0
      · have hpos : 0 < byteAt p 2 ∨ 0 < byteAt p 3 ∨ 0 < byteAt p 4 ∨ 0 < byteAt p 5 := by
          simp only [ne_eq, Nat.or_eq_zero_iff] at hhigh
          omega
        rw [if_pos hhigh, if_pos (Or.inr (by omega))]
      · have hzero : byteAt p 2 = 0 ∧ byteAt p 3 = 0 ∧ byteAt p 4 = 0 ∧ byteAt p 5 = 0 := by
          simp only [ne_eq, Nat.or_eq_zero_iff, not_not] at hhigh
          omega
        have h6 := byteAt_lt p 6
        have h7 := byteAt_lt p 7
        have h8 := byteAt_lt p 8
        have h9 := byteAt_lt p 9
        simp only [hzero, Nat.zero_mul, Nat.zero_add] at hpay
        rw [if_neg hhigh, ← hpay]
        by_cases hlow : payloadLen p < 65536
        · rw [if_pos hlow, if_pos (Or.inl fun h => absurd (hshort.mp h) (by omega))]
        by_cases hcap : payloadLen p > cap
        · rw [if_neg hlow, if_pos hcap, if_pos (Or.inr (by omega))]
        · rw [if_neg hlow, if_neg hcap, if_neg (hok (hshort.mpr (by omega)) hcap (by omega))]
    · have hext : extended (byteAt p 1) = 0 := by
        unfold extended
        rw [if_neg h126, if_neg h127]
      have hpay : payloadLen p = byteAt p 1 % 128 := by rw [payloadLen, hext, if_pos rfl]
      have hshort : Shortest p := by simp [Shortest, hext]
      rw [if_neg h127, hext, if_neg (show ¬ p.length < 2 + 0 from htwo), ← hpay]
      by_cases hcap : payloadLen p > cap
      · rw [if_pos hcap, if_pos (Or.inr (by omega))]
      · rw [if_neg hcap, if_neg (hok hshort hcap (by omega))]
  · rw [if_pos hper]
    by_cases h₁ : byteAt p 0 &&& 0x70 ≠ 0 ∨ decide (byteAt p 1 &&& 0x80 ≠ 0) ≠ masked
    · rw [if_pos h₁]
    rw [if_neg h₁]
    split
    · rfl
    · split
      · rfl
      · next h₂ h₃ => exact absurd (hiff.mpr ⟨h₁, h₂, h₃⟩) hper

/-- Null exactly while the bytes that decide are not there. -/
theorem wsHead_null (p : Bytes) (masked : Bool) (cap : Nat) :
    wsHead p.length (byteAt p) masked cap = .null ↔ p.length < 2 ∨
      Permitted masked (byteAt p 0) (byteAt p 1) ∧ p.length < 2 + extended (byteAt p 1) := by
  rw [wsHead_eq, rfcHead]
  by_cases htwo : p.length < 2
  · simp [htwo]
  by_cases hper : Permitted masked (byteAt p 0) (byteAt p 1)
  · by_cases hext : p.length < 2 + extended (byteAt p 1)
    · simp [htwo, hper, hext]
    · rw [if_neg htwo, if_neg (not_not_intro hper), if_neg hext]
      split <;> simp [htwo, hext]
  · simp [htwo, hper]

/-- Refused exactly where the header is forbidden or states a length over the cap. -/
theorem wsHead_refused (p : Bytes) (masked : Bool) (cap : Nat) :
    wsHead p.length (byteAt p) masked cap = .refused ↔ 2 ≤ p.length ∧
      (¬ Permitted masked (byteAt p 0) (byteAt p 1) ∨ 2 + extended (byteAt p 1) ≤ p.length ∧
        (¬ Shortest p ∨ min cap (2 ^ 32 - 1) < payloadLen p)) := by
  rw [wsHead_eq, rfcHead]
  by_cases htwo : p.length < 2
  · simp [htwo]
  by_cases hper : Permitted masked (byteAt p 0) (byteAt p 1)
  · by_cases hext : p.length < 2 + extended (byteAt p 1)
    · simp [htwo, hper, hext]
    · by_cases hbad : ¬ Shortest p ∨ min cap (2 ^ 32 - 1) < payloadLen p
      · rw [if_neg htwo, if_neg (not_not_intro hper), if_neg hext, if_pos hbad]
        simp only [true_iff]
        exact ⟨by omega, Or.inr ⟨by omega, hbad⟩⟩
      · rw [if_neg htwo, if_neg (not_not_intro hper), if_neg hext, if_neg hbad]
        simp only [reduceCtorEq, false_iff, not_and, not_or, not_not]
        exact fun _ => ⟨hper, fun _ => by simpa using hbad⟩
  · simp [htwo, hper]
    omega

/-- An answer stands whatever comes behind. -/
theorem wsHead_append (p q : Bytes) (masked : Bool) (cap : Nat)
    (h : wsHead p.length (byteAt p) masked cap ≠ .null) :
    wsHead (p ++ q).length (byteAt (p ++ q)) masked cap = wsHead p.length (byteAt p) masked cap := by
  rw [Ne, wsHead_null, not_or, not_and] at h
  obtain ⟨htwo, hext⟩ := h
  have h0 : byteAt (p ++ q) 0 = byteAt p 0 := byteAt_append_left p q 0 (by omega)
  have h1 : byteAt (p ++ q) 1 = byteAt p 1 := byteAt_append_left p q 1 (by omega)
  have hlen : p.length ≤ (p ++ q).length := by simp
  rw [wsHead_eq, wsHead_eq]
  unfold rfcHead
  rw [h0, h1, if_neg htwo, if_neg (show ¬ (p ++ q).length < 2 by omega)]
  by_cases hper : Permitted masked (byteAt p 0) (byteAt p 1)
  · have hroom := hext hper
    have hpay : payloadLen (p ++ q) = payloadLen p := by
      unfold payloadLen
      rw [h1, List.drop_append_of_le_length (by omega),
        List.take_append_of_le_length (by rw [List.length_drop]; omega)]
    have hshort : Shortest (p ++ q) ↔ Shortest p := by
      unfold Shortest
      rw [h1, hpay]
    rw [if_neg hroom, if_neg (show ¬ (p ++ q).length < 2 + extended (byteAt p 1) by omega), hpay]
    simp only [hshort]
  · rw [if_pos hper, if_pos hper]

/-- What a header that is read says. -/
theorem rfcHead_header {p : Bytes} {masked : Bool} {cap : Nat} {fin : Bool} {opcode head len : Nat}
    (h : rfcHead p masked cap = .header fin opcode head len) :
    Permitted masked (byteAt p 0) (byteAt p 1) ∧ fin = decide (128 ≤ byteAt p 0) ∧ opcode = byteAt p 0 % 16 ∧
      head = 2 + extended (byteAt p 1) + (if masked then 4 else 0) ∧ len = payloadLen p ∧
      2 + extended (byteAt p 1) ≤ p.length ∧ len ≤ cap := by
  unfold rfcHead at h
  by_cases htwo : p.length < 2
  · rw [if_pos htwo] at h
    cases h
  by_cases hper : Permitted masked (byteAt p 0) (byteAt p 1)
  · by_cases hext : p.length < 2 + extended (byteAt p 1)
    · rw [if_neg htwo, if_neg (not_not_intro hper), if_pos hext] at h
      cases h
    by_cases hbad : ¬ Shortest p ∨ min cap (2 ^ 32 - 1) < payloadLen p
    · rw [if_neg htwo, if_neg (not_not_intro hper), if_neg hext, if_pos hbad] at h
      cases h
    · rw [if_neg htwo, if_neg (not_not_intro hper), if_neg hext, if_neg hbad] at h
      obtain ⟨rfl, rfl, rfl, rfl⟩ := Head.header.inj h
      exact ⟨hper, rfl, rfl, rfl, rfl, by omega, by omega⟩
  · rw [if_neg htwo, if_pos hper] at h
    cases h

/-- A header is as wide as its length form and its key. -/
theorem wsHead_width {p : Bytes} {masked : Bool} {cap : Nat} {fin : Bool} {opcode head len : Nat}
    (h : wsHead p.length (byteAt p) masked cap = .header fin opcode head len) :
    2 ≤ head ∧ head ≤ 14 ∧ len ≤ cap := by
  rw [wsHead_eq] at h
  obtain ⟨-, -, -, hhead, -, -, hcap⟩ := rfcHead_header h
  have hext : extended (byteAt p 1) ≤ 8 := by
    unfold extended
    split_ifs <;> omega
  cases masked <;> simp at hhead <;> omega

/-! ### What a framer writes is read back -/

/-- What a framer sends: binary messages, the close and pongs, a control frame's payload at most 125
bytes, a close's not one. -/
structure Sendable (opcode : Nat) (payload : Bytes) : Prop where
  sent : opcode = WS_OP_BINARY ∨ opcode = WS_OP_CLOSE ∨ opcode = WS_OP_PONG
  size : payload.length < 2 ^ 32
  control : WS_OP_CLOSE ≤ opcode → payload.length ≤ 125
  close : opcode = WS_OP_CLOSE → payload.length ≠ 1

/-- A header in the shortest length form, key apart. -/
def shortHead (opcode n : Nat) (masked : Bool) : Bytes :=
  UInt8.ofNat (0x80 ||| opcode) ::
    UInt8.ofNat ((if masked then 0x80 else 0) ||| (if n < 126 then n else if n < 65536 then 126 else 127)) ::
      (if n < 126 then [] else if n < 65536 then writeU16BE n else [0, 0, 0, 0] ++ writeU32BE n)

/-- Its width. -/
def headWidth (n : Nat) : Nat := if n < 126 then 2 else if n < 65536 then 4 else 10

theorem shortHead_length (opcode n : Nat) (masked : Bool) : (shortHead opcode n masked).length = headWidth n := by
  unfold shortHead headWidth
  split_ifs <;> simp

theorem wsFrame_none (opcode : Nat) (payload : Bytes) :
    wsFrame opcode payload none = shortHead opcode payload.length false ++ payload := by
  by_cases h₁ : payload.length < 126
  · simp [wsFrame, shortHead, h₁]
  · by_cases h₂ : payload.length < 65536 <;> simp [wsFrame, shortHead, h₁, h₂]

theorem wsFrame_some (opcode : Nat) (payload key : Bytes) :
    wsFrame opcode payload (some key) = WS_OP_MASK :: (shortHead opcode payload.length true ++ (key ++ payload)) := by
  by_cases h₁ : payload.length < 126
  · simp [wsFrame, shortHead, h₁]
  · by_cases h₂ : payload.length < 65536 <;> simp [wsFrame, shortHead, h₁, h₂]

/-- The second octet carries the mask bit over the short length. -/
theorem second_octet (masked : Bool) {n : Nat} (h : n < 128) :
    (UInt8.ofNat ((if masked then 0x80 else 0) ||| n)).toNat = (if masked then 128 else 0) + n := by
  have hor : ∀ n : Fin 128, (0x80 ||| n.val) % 256 = 128 + n.val := by decide +kernel
  rw [UInt8.toNat_ofNat']
  cases masked
  · simp
    omega
  · exact hor ⟨n, h⟩

/-- A header that was written is read back, whatever follows it. -/
theorem wsHead_written {opcode : Nat} {payload : Bytes} (h : Sendable opcode payload) (masked : Bool) {cap : Nat}
    (hcap : payload.length ≤ cap) {p : Bytes} (rest : Bytes) (hp : p = shortHead opcode payload.length masked ++ rest) :
    wsHead p.length (byteAt p) masked cap =
      .header true opcode (headWidth payload.length + if masked then 4 else 0) payload.length := by
  have h0 : byteAt p 0 = 128 + opcode := by
    rcases h.sent with rfl | rfl | rfl <;> rw [hp] <;> rfl
  have hsmall : opcode < 16 := by rcases h.sent with rfl | rfl | rfl <;> decide
  obtain ⟨len, h1, hlen⟩ : ∃ len, byteAt p 1 = (if masked then 128 else 0) + len ∧
      (payload.length < 126 ∧ len = payload.length ∨ 126 ≤ payload.length ∧ payload.length < 65536 ∧ len = 126 ∨
        65536 ≤ payload.length ∧ len = 127) := by
    refine ⟨if payload.length < 126 then payload.length else if payload.length < 65536 then 126 else 127, ?_, ?_⟩
    · rw [hp, ← second_octet masked (by split_ifs <;> omega)]
      rfl
    · split_ifs <;> omega
  have hmod : byteAt p 1 % 128 = len := by split at h1 <;> omega
  have hper : Permitted masked (byteAt p 0) (byteAt p 1) := by
    have hctl : 8 ≤ opcode → payload.length ≤ 125 := h.control
    have hclose : opcode = 8 → payload.length ≠ 1 := h.close
    refine ⟨by omega, ?_, ?_, by omega, by omega⟩
    · rw [h0]
      rcases h.sent with rfl | rfl | rfl <;> decide
    · rw [h1]
      cases masked
      · simp
        omega
      · simp
  have hlong : p.length = headWidth payload.length + rest.length := by
    rw [hp, List.length_append, shortHead_length]
  have hsize := h.size
  have hext : headWidth payload.length = 2 + extended (byteAt p 1) := by
    unfold headWidth extended
    rw [hmod]
    split_ifs <;> omega
  have hpay : payloadLen p = payload.length := by
    unfold headWidth at hext
    unfold payloadLen
    rw [hmod]
    unfold shortHead at hp
    rcases hlen with ⟨hn, rfl⟩ | ⟨hn, hn', rfl⟩ | ⟨hn, rfl⟩
    · rw [if_pos hn] at hext
      rw [if_pos (by omega)]
    · rw [if_neg (by omega), if_pos hn'] at hext
      rw [if_neg (by omega), show extended (byteAt p 1) = 2 by omega, hp]
      simp [network, writeU16BE, hn', Nat.not_lt.mpr hn]
      omega
    · rw [if_neg (by omega), if_neg (by omega)] at hext
      have hn' : ¬ payload.length < 126 := by omega
      rw [if_neg (by omega), show extended (byteAt p 1) = 8 by omega, hp]
      simp [network, writeU32BE, hn', Nat.not_lt.mpr hn]
      omega
  have hfin : decide (128 ≤ byteAt p 0) = true := by simp [h0]
  have hshort : Shortest p := by
    unfold Shortest
    rw [hpay]
    unfold headWidth at hext
    split_ifs at hext <;> omega
  have hbad : ¬ (¬ Shortest p ∨ min cap (2 ^ 32 - 1) < payloadLen p) :=
    fun hb => hb.elim (fun hn => hn hshort) (by omega)
  rw [wsHead_eq, rfcHead, if_neg (show ¬ p.length < 2 by omega), if_neg (not_not_intro hper),
    if_neg (show ¬ p.length < 2 + extended (byteAt p 1) by omega), if_neg hbad, hfin, hpay, ← hext]
  congr 1
  omega

/-! ### The codec -/

theorem maskedHead_written (opcode n : Nat) (rest : Bytes) :
    maskedHead (shortHead opcode n true ++ rest) = headWidth n + 4 := by
  have h1 : byteAt (shortHead opcode n true ++ rest) 1 =
      128 + (if n < 126 then n else if n < 65536 then 126 else 127) :=
    second_octet true (n := if n < 126 then n else if n < 65536 then 126 else 127) (by split_ifs <;> omega)
  unfold maskedHead headWidth
  rw [h1]
  split_ifs <;> omega

/-- The module masks the payload and leaves the header and the key. -/
theorem masking_written (opcode n : Nat) {key : Bytes} (payload : Bytes) (hkey : key.length = 4) :
    masking (shortHead opcode n true ++ (key ++ payload)) =
      shortHead opcode n true ++ (key ++ masked key payload) := by
  have hwidth : headWidth n + 4 = (shortHead opcode n true ++ key).length := by
    rw [List.length_append, shortHead_length, hkey]
  have hfour : headWidth n + 4 - 4 = (shortHead opcode n true).length := by
    rw [shortHead_length, Nat.add_sub_cancel]
  unfold masking
  rw [maskedHead_written, hfour, List.drop_left, List.take_left' hkey, ← List.append_assoc, hwidth,
    List.take_left, List.drop_left, List.append_assoc]

theorem call_written (b : Ws.Buffers) (m : Memory) (opcode n : Nat) {key payload : Bytes} (hkey : key.length = 4)
    (hroom : headWidth n + 4 + payload.length + 1 ≤ SCRATCH_SIZE) :
    Ws.call b m (WS_OP_MASK :: (shortHead opcode n true ++ (key ++ payload))) =
      some (shortHead opcode n true ++ (key ++ masked key payload)) := by
  rw [← masking_written opcode n payload hkey]
  refine Ws.call_mask b m ?_ ?_
  · rw [maskedHead_written, List.length_append, List.length_append, shortHead_length, hkey]
    omega
  · rw [List.length_append, List.length_append, shortHead_length, hkey]
    omega

/-- The frame codec: what is sent is read back at the other role with any bytes behind it, the module
masks and restores the payload, its passes are one XOR byte by byte, and `wsHead` waits and refuses
exactly where RFC 6455 has it. -/
theorem frame_codec :
    (∀ (opcode : Nat) (payload : Bytes), Sendable opcode payload → ∀ cap, payload.length ≤ cap → ∀ rest : Bytes,
      (let sent := wsFrame opcode payload none
       wsHead (sent ++ rest).length (byteAt (sent ++ rest)) false cap =
          .header true opcode (headWidth payload.length) payload.length ∧
        sent.drop (headWidth payload.length) = payload) ∧
      ∀ key : Bytes, key.length = 4 → (wsFrame opcode payload (some key)).length ≤ SCRATCH_SIZE →
        ∀ (b : Ws.Buffers) (m : Memory), ∃ sent,
          Ws.call b m (wsFrame opcode payload (some key)) = some sent ∧
          wsHead (sent ++ rest).length (byteAt (sent ++ rest)) true cap =
            .header true opcode (headWidth payload.length + 4) payload.length ∧
          sent.length = headWidth payload.length + 4 + payload.length ∧
          sent.drop (headWidth payload.length + 4) = masked key payload ∧
          ∀ (b' : Ws.Buffers) (m' : Memory), ∃ clear, Ws.call b' m' (OP_MASK :: sent) = some clear ∧
            clear.drop (headWidth payload.length + 4) = payload) ∧
    (∀ (m : Memory) (ptr len : Nat) (m0 m1 m2 m3 : UInt8) (x : Nat), Ws.maskRun m ptr len m0 m1 m2 m3 x =
      if ptr ≤ x ∧ x < ptr + len then m x ^^^ [m0, m1, m2, m3].getD ((x - ptr) % 4) 0 else m x) ∧
    (∀ (p : Bytes) (masked : Bool) (cap : Nat),
      (wsHead p.length (byteAt p) masked cap = .null ↔ p.length < 2 ∨
        Permitted masked (byteAt p 0) (byteAt p 1) ∧ p.length < 2 + extended (byteAt p 1)) ∧
      (wsHead p.length (byteAt p) masked cap = .refused ↔ 2 ≤ p.length ∧
        (¬ Permitted masked (byteAt p 0) (byteAt p 1) ∨ 2 + extended (byteAt p 1) ≤ p.length ∧
          (¬ Shortest p ∨ min cap (2 ^ 32 - 1) < payloadLen p)))) := by
  refine ⟨?_, ?_, fun p masked cap => ⟨wsHead_null p masked cap, wsHead_refused p masked cap⟩⟩
  · intro opcode payload hs cap hcap rest
    constructor
    · dsimp only
      constructor
      · exact wsHead_written hs false hcap (payload ++ rest) (by rw [wsFrame_none, List.append_assoc])
      · rw [wsFrame_none, ← shortHead_length opcode payload.length false, List.drop_left]
    · intro key hkey hroom b m
      have hlen : (wsFrame opcode payload (some key)).length = headWidth payload.length + 4 + payload.length + 1 := by
        rw [wsFrame_some, List.length_cons, List.length_append, List.length_append, shortHead_length, hkey]
        omega
      have hdrop : ∀ q : Bytes, (shortHead opcode payload.length true ++ (key ++ q)).drop
          (headWidth payload.length + 4) = q := by
        intro q
        rw [← List.append_assoc]
        exact List.drop_left' (by rw [List.length_append, shortHead_length, hkey])
      refine ⟨shortHead opcode payload.length true ++ (key ++ masked key payload), ?_, ?_, ?_, hdrop _, ?_⟩
      · rw [wsFrame_some]
        exact call_written b m opcode _ hkey (by omega)
      · rw [List.append_assoc]
        exact wsHead_written hs true hcap _ rfl
      · rw [List.length_append, List.length_append, shortHead_length, hkey, Ws.masked_length]
        omega
      · intro b' m'
        refine ⟨_, call_written b' m' opcode _ hkey (by rw [Ws.masked_length]; omega), ?_⟩
        rw [hdrop, Ws.masked_masked]
  · intro m ptr len m0 m1 m2 m3 x
    rw [Ws.maskRun_eq]
    rfl

/-- A pong of one byte from a server. -/
theorem frame_codec_pong :
    wsHead 3 (byteAt (wsFrame WS_OP_PONG [7] none ++ [])) false 1 = .header true WS_OP_PONG 2 1 :=
  (frame_codec.1 WS_OP_PONG [7] ⟨Or.inr (Or.inr rfl), by decide, by decide, by decide⟩ 1 (by decide) []).1.1

/-- A close of one byte is refused, a masking request over the scratch has no answer, and a length of
2^32 is refused under a cap that would hold it. -/
theorem frame_unread :
    wsHead 3 (byteAt (wsFrame WS_OP_CLOSE [0] none)) false 125 = .refused ∧
    Ws.call ⟨0, SCRATCH_SIZE, by decide⟩ (fun _ => 0)
      (wsFrame WS_OP_BINARY (List.replicate SCRATCH_SIZE 0) (some [1, 2, 3, 4])) = none ∧
    (Permitted false (byteAt [0x82, 127, 0, 0, 0, 1, 0, 0, 0, 0] 0) (byteAt [0x82, 127, 0, 0, 0, 1, 0, 0, 0, 0] 1) ∧
      Shortest [0x82, 127, 0, 0, 0, 1, 0, 0, 0, 0] ∧ payloadLen [0x82, 127, 0, 0, 0, 1, 0, 0, 0, 0] ≤ 2 ^ 33 ∧
      wsHead 10 (byteAt [0x82, 127, 0, 0, 0, 1, 0, 0, 0, 0]) false (2 ^ 33) = .refused) := by
  refine ⟨by decide, ?_, by decide, by decide, by decide, by decide⟩
  unfold Ws.call
  rw [if_pos]
  rw [wsFrame_some, List.length_cons, List.length_append, List.length_append, List.length_replicate]
  omega

end SeedTransport.Framing
