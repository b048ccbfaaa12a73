import SeedTransport.Lib.Text
import SeedTransport.Lib.Utf
import SeedTransport.Udp.SendBatch

set_option autoImplicit false

namespace SeedTransport.Address

open Text

/-! Addresses as texts (`udp.js`, `datagrams.ts`): what an IPv6 address is spelled as, read back
and accepted as. -/

/-! ### Texts of addresses -/

def lowerHex (c : Char) : Bool := decide (48 ≤ c.toNat ∧ c.toNat ≤ 57 ∨ 97 ≤ c.toNat ∧ c.toNat ≤ 102)

/-- `/^[0-9a-f]{1,4}$/` -/
def isGroup (g : List Char) : Bool := decide (1 ≤ g.length ∧ g.length ≤ 4) && g.all lowerHex

def groupsOf (part : List Char) : List (List Char) := if part = [] then [] else part.splitOn ':'

/-- Eight groups in lower-case hex, or fewer around one `::`. -/
def isIPv6 (text : List Char) : Bool :=
  let halves := splitDouble ':' text
  let groups := halves.flatMap groupsOf
  if halves.length > 2 then false
  else if !groups.all isGroup then false
  else if halves.length = 2 then decide (groups.length ≤ 7) else decide (groups.length = 8)

/-- The best run of zero groups so far, where it begins and its length, and the zeros just
passed. `none` is -1. -/
structure ZeroScan where
  run : Option Nat
  runLen : Nat
  zeros : Nat

def ZeroScan.step (s : ZeroScan) (i v : Nat) : ZeroScan :=
  let zeros := if v = 0 then s.zeros + 1 else 0
  if zeros > s.runLen then ⟨some (i + 1 - zeros), zeros, zeros⟩ else { s with zeros := zeros }

/-- The loop over the groups from the `i`th on. -/
def ZeroScan.over (s : ZeroScan) (i : Nat) : List Nat → ZeroScan
  | [] => s
  | v :: vs => (s.step i v).over (i + 1) vs

/-- The eight groups of the 16 bytes at `start`. -/
def groupsAt (b : Bytes) (start : Nat) : List Nat := (List.range 8).map fun i => readU16BE b (start + 2 * i)

def ipv6Text (b : Bytes) (start : Nat) : List Char :=
  let g := (groupsAt b start).map (Nat.toDigits 16)
  let scan := ZeroScan.over ⟨none, 1, 0⟩ 0 (groupsAt b start)
  match scan.run with
  | none => join ':' g
  | some run => join ':' (g.take run) ++ ':' :: ':' :: join ':' (g.drop (run + scan.runLen))

/-- `host:port`, with an IPv6 host in brackets. -/
def endpoint (host : List Char) (port : Nat) : List Char :=
  if ':' ∈ host then '[' :: host ++ ']' :: ':' :: Nat.toDigits 10 port
  else host ++ ':' :: Nat.toDigits 10 port

/-- An address, as sent to: `port` 0 is any port of the host. -/
structure Addr where
  host : List Char
  port : Nat
  b : Bytes
  deriving DecidableEq

def addrOf (host : List Char) (port : Nat) : Addr := ⟨host, port, Utf.utf8Encode (host.flatMap Utf.utf16)⟩

def isDigit (c : Char) : Bool := decide (48 ≤ c.toNat ∧ c.toNat ≤ 57)

/-- `25[0-5]|2[0-4]\d|1?\d?\d` -/
def isOctet (s : List Char) : Bool :=
  s.all isDigit && match s with
    | [_] => true
    | [_, _] => true
    | [x, y, z] => decide (x = '1') || decide (x = '2') &&
        (decide (y.toNat ≤ 52) || decide (y = '5') && decide (z.toNat ≤ 53))
    | _ => false

/-- The match of `CANDIDATE`: an IPv4 host, or one in brackets, and the port. -/
def candidateMatch (text : List Char) : Option (Option (List Char) × Option (List Char) × List Char) :=
  let port := (text.reverse.takeWhile (· ≠ ':')).reverse
  match text.reverse.dropWhile (· ≠ ':') with
  | [] => none
  | _ :: before =>
    let host := before.reverse
    if ¬ (port = ['*'] ∨ 1 ≤ port.length ∧ port.length ≤ 5 ∧ port.all isDigit = true) then none
    else if (host.splitOn '.').length = 4 ∧ (host.splitOn '.').all isOctet = true then some (some host, none, port)
    else match host with
      | '[' :: rest =>
        let inner := rest.dropLast
        if rest.getLast? = some ']' ∧ 2 ≤ inner.length ∧ inner.length ≤ 39 ∧
            inner.all (fun c => lowerHex c || c = ':') = true then some (none, some inner, port)
        else none
      | _ => none

def candidateOf (text : List Char) : Option Addr :=
  match candidateMatch text with
  | none => none
  | some (m1, m2, m3) =>
    if (m2.any fun host => !isIPv6 host) = true then none
    else
      let host := (m1.or m2).getD []
      if m3 = ['*'] then some (addrOf host 0)
      else
        let port := Nat.ofDigitChars 10 m3 0
        if port > 0 ∧ port < 65536 then some (addrOf host port) else none

/-- `out[2 * i] = w >> 8; out[2 * i + 1] = w & 255` for the groups from the `i`th on; `NaN` stores 0. -/
def storeGroups (out : Bytes) (i : Nat) : List (Option Int) → Bytes
  | [] => out
  | w :: ws =>
    storeGroups ((out.set (2 * i) (UInt8.ofInt (w.getD 0 / 256))).set (2 * i + 1) (UInt8.ofInt (w.getD 0))) (i + 1) ws

/-- The 16 bytes of an IPv6 address's text. `none` is the `RangeError` for more than eight groups
around a `::`. -/
def ipv6Bytes (text : List Char) : Option Bytes :=
  let halves := splitDouble ':' ((text.splitOn '%').headD [])
  let groups (part : List Char) := (groupsOf part).map parseHex
  let front := groups (halves.headD [])
  let out := List.replicate 16 0
  match halves with
  | _ :: tail :: _ =>
    let back := groups tail
    if front.length + back.length > 8 then none
    else some (storeGroups out 0
      (front ++ List.replicate (8 - front.length - back.length) (some 0) ++ back))
  | _ => some (storeGroups out 0 front)

/-! ### The canonical form -/

/-- `n` zero groups from the `i`th on. -/
def ZeroRun (gs : List Nat) (i n : Nat) : Prop := i + n ≤ gs.length ∧ ∀ k, i ≤ k → k < i + n → gs[k]? = some 0

/-- The form of RFC 5952: groups in lower-case hex without leading zeros; the longest run of two or more
zero groups, the first of equals, is `::`. -/
inductive Rfc5952 (gs : List Nat) : List Char → Prop
  | full (h : ∀ i n, ZeroRun gs i n → n ≤ 1) : Rfc5952 gs (join ':' (gs.map (Nat.toDigits 16)))
  | shortened (i n : Nat) (hn : 2 ≤ n) (hz : ZeroRun gs i n) (hl : ∀ j m, ZeroRun gs j m → m ≤ n)
      (hf : ∀ j, ZeroRun gs j n → i ≤ j) :
      Rfc5952 gs (join ':' ((gs.take i).map (Nat.toDigits 16)) ++ ':' :: ':' ::
        join ':' ((gs.drop (i + n)).map (Nat.toDigits 16)))

/-- What the scan knows of the groups `p` it has passed. -/
structure ZeroScan.Knows (s : ZeroScan) (p : List Nat) : Prop where
  suffix : s.zeros ≤ p.length ∧ ZeroRun p (p.length - s.zeros) s.zeros
  longest : ∀ m, m ≤ p.length → ZeroRun p (p.length - m) m → m ≤ s.zeros
  bound : ∀ j m, ZeroRun p j m → m ≤ s.runLen
  best : (s.run = none ∧ s.runLen = 1) ∨
    ∃ k, s.run = some k ∧ 2 ≤ s.runLen ∧ ZeroRun p k s.runLen ∧ ∀ j, ZeroRun p j s.runLen → k ≤ j

theorem zeroRun_append {p : List Nat} {v j m : Nat} (h : ZeroRun (p ++ [v]) j m) :
    ZeroRun p j m ∨ (1 ≤ m ∧ j + m = p.length + 1 ∧ v = 0) ∨ m = 0 := by
  obtain ⟨hle, hz⟩ := h
  rw [List.length_append, List.length_singleton] at hle
  by_cases hm : m = 0
  · exact Or.inr (Or.inr hm)
  by_cases hend : j + m = p.length + 1
  · refine Or.inr (Or.inl ⟨Nat.pos_of_ne_zero hm, hend, ?_⟩)
    have hlast := hz p.length (by omega) (by omega)
    rw [List.getElem?_append_right (Nat.le_refl _), Nat.sub_self] at hlast
    exact Option.some.inj hlast
  · refine Or.inl ⟨by omega, fun k hk hk' => ?_⟩
    have := hz k hk hk'
    rwa [List.getElem?_append_left (by omega)] at this

theorem ZeroRun.extend {p : List Nat} {j m : Nat} (h : ZeroRun p j m) (v : Nat) : ZeroRun (p ++ [v]) j m :=
  ⟨by rw [List.length_append]; have := h.1; omega, fun k hk hk' => by
    have := h.1
    rw [List.getElem?_append_left (by omega)]
    exact h.2 k hk hk'⟩

theorem ZeroScan.Knows.one_le {s : ZeroScan} {p : List Nat} (h : s.Knows p) : 1 ≤ s.runLen := by
  rcases h.best with ⟨-, h⟩ | ⟨-, -, h, -⟩ <;> omega

/-- A group that is not zero ends the run in hand. -/
theorem ZeroScan.Knows.passed {s : ZeroScan} {p : List Nat} (h : s.Knows p) {v : Nat} (hv : v ≠ 0) :
    ({ s with zeros := 0 } : ZeroScan).Knows (p ++ [v]) where
  suffix := by
    refine ⟨Nat.zero_le _, Nat.le_refl _, fun k hk hk' => ?_⟩
    simp only [Nat.sub_zero, Nat.add_zero] at hk hk'
    omega
  longest := fun m hm hz => by
    rw [List.length_append, List.length_singleton] at hm hz
    rcases zeroRun_append hz with hin | ⟨-, -, hzero⟩ | hnone
    · have := hin.1
      omega
    · exact absurd hzero hv
    · exact Nat.le_of_eq hnone
  bound := fun j m hz => by
    rcases zeroRun_append hz with hin | ⟨-, -, hzero⟩ | hnone
    · exact h.bound j m hin
    · exact absurd hzero hv
    · rw [hnone]
      exact Nat.zero_le _
  best := by
    refine h.best.imp_right fun ⟨k, hk, htwo, hz, hfirst⟩ => ⟨k, hk, htwo, hz.extend v, fun j hj => ?_⟩
    rcases zeroRun_append hj with hin | ⟨-, -, hzero⟩ | hnone
    · exact hfirst j hin
    · exact absurd hzero hv
    · simp only at hnone
      omega

/-- One zero group more, at the end of what was passed. -/
theorem ZeroScan.Knows.tail {s : ZeroScan} {p : List Nat} (h : s.Knows p) :
    ZeroRun (p ++ [0]) (p.length - s.zeros) (s.zeros + 1) ∧
      ∀ j m, j + m = p.length + 1 → ZeroRun (p ++ [0]) j m → m ≤ s.zeros + 1 := by
  obtain ⟨hle, -, hz⟩ := h.suffix
  refine ⟨⟨by rw [List.length_append, List.length_singleton]; omega, fun k hk hk' => ?_⟩, fun j m hend hrun => ?_⟩
  · by_cases hlast : k = p.length
    · rw [hlast, List.getElem?_append_right (Nat.le_refl _), Nat.sub_self]
      rfl
    · rw [List.getElem?_append_left (by omega)]
      exact hz k hk (by omega)
  · by_cases hm : m = 0
    · omega
    · have hin : ZeroRun p (p.length - (m - 1)) (m - 1) := by
        refine ⟨by omega, fun k hk hk' => ?_⟩
        have := hrun.2 k (by omega) (by omega)
        rwa [List.getElem?_append_left (by omega)] at this
      have := h.longest (m - 1) (by omega) hin
      omega

theorem ZeroScan.Knows.step {s : ZeroScan} {p : List Nat} (h : s.Knows p) (v : Nat) :
    (s.step p.length v).Knows (p ++ [v]) := by
  have hone := h.one_le
  by_cases hv : v = 0
  · subst hv
    obtain ⟨hle, -⟩ := h.suffix
    obtain ⟨hrun, hends⟩ := h.tail
    have hlen : (p ++ [0]).length = p.length + 1 := by rw [List.length_append, List.length_singleton]
    have hsuffix : s.zeros + 1 ≤ (p ++ [0]).length ∧ ZeroRun (p ++ [0]) ((p ++ [0]).length - (s.zeros + 1)) (s.zeros + 1) := by
      rw [hlen, Nat.add_sub_add_right]
      exact ⟨by omega, hrun⟩
    have hlongest : ∀ m, m ≤ (p ++ [0]).length → ZeroRun (p ++ [0]) ((p ++ [0]).length - m) m → m ≤ s.zeros + 1 := by
      rw [hlen]
      exact fun m hm => hends _ m (by omega)
    have hbound : ∀ j m, ZeroRun (p ++ [0]) j m → m ≤ s.runLen ∨ m ≤ s.zeros + 1 := fun j m hz => by
      rcases zeroRun_append hz with hin | ⟨-, hend, -⟩ | hnone
      · exact Or.inl (h.bound j m hin)
      · exact Or.inr (hends j m hend hz)
      · exact Or.inl (hnone ▸ Nat.zero_le _)
    unfold ZeroScan.step
    simp only [if_true]
    split_ifs with hbest
    · refine ⟨hsuffix, hlongest, fun j m hz => ?_, Or.inr ⟨_, rfl, by simp only; omega, ?_, fun j hj => ?_⟩⟩
      · have := hbound j m hz
        simp only
        omega
      · rw [Nat.add_sub_add_right]
        exact hrun
      · simp only at hj ⊢
        rcases zeroRun_append hj with hin | ⟨-, hend, -⟩ | hnone
        · have := h.bound j _ hin
          omega
        · omega
        · omega
    · refine ⟨hsuffix, hlongest, fun j m hz => ?_, ?_⟩
      · have := hbound j m hz
        simp only
        omega
      · refine h.best.imp_right fun ⟨k, hk, htwo, hz, hfirst⟩ => ⟨k, hk, htwo, hz.extend 0, fun j hj => ?_⟩
        rcases zeroRun_append hj with hin | ⟨-, hend, -⟩ | hnone
        · exact hfirst j hin
        · have := hz.1
          simp only at hend
          omega
        · simp only at hnone
          omega
  · have hstep : s.step p.length v = { s with zeros := 0 } := by
      unfold ZeroScan.step
      simp only [if_neg hv]
      rw [if_neg (by omega)]
    rw [hstep]
    exact h.passed hv

theorem ZeroScan.Knows.over {s : ZeroScan} {p : List Nat} (h : s.Knows p) (vs : List Nat) :
    (s.over p.length vs).Knows (p ++ vs) := by
  induction vs generalizing s p with
  | nil => rwa [List.append_nil]
  | cons v vs ih =>
    have hrest := ih (h.step v)
    rw [List.length_append, List.length_singleton, List.append_assoc] at hrest
    exact hrest

/-- What the whole scan knows of the groups. -/
theorem scan_knows (gs : List Nat) : (ZeroScan.over ⟨none, 1, 0⟩ 0 gs).Knows gs := by
  refine ZeroScan.Knows.over (p := []) ⟨⟨Nat.le_refl _, Nat.le_refl _, fun k hk hk' => ?_⟩, fun m hm _ => hm, fun j m hz => ?_,
    Or.inl ⟨rfl, rfl⟩⟩ gs
  · simp only [List.length_nil] at hk hk'
    omega
  · have := hz.1
    simp only [List.length_nil] at this ⊢
    omega

/-- The text of an address is its canonical form, in one of its two shapes. -/
theorem ipv6Text_form (b : Bytes) (start : Nat) : Rfc5952 (groupsAt b start) (ipv6Text b start) := by
  have h := scan_knows (groupsAt b start)
  unfold ipv6Text
  simp only
  generalize ZeroScan.over ⟨none, 1, 0⟩ 0 (groupsAt b start) = scan at h
  generalize groupsAt b start = gs at h
  rcases h.best with ⟨hrun, hlen⟩ | ⟨k, hrun, htwo, hz, hfirst⟩
  · rw [hrun]
    exact .full fun i n hz => hlen ▸ h.bound i n hz
  · rw [hrun]
    simp only
    rw [← List.map_take, ← List.map_drop]
    exact .shortened k scan.runLen htwo hz h.bound hfirst

/-! ### The form read back -/

theorem toDigits_free (v : Nat) {sep : Char} (h : Text.hexDigit sep = none) : sep ∉ Nat.toDigits 16 v := fun hm => by
  have := ((toDigits_hex v).1 sep hm).1
  rw [h] at this
  cases this

theorem parts_hex (gs : List Nat) : Parts ':' (gs.map (Nat.toDigits 16)) := fun p hp => by
  obtain ⟨v, -, rfl⟩ := List.mem_map.mp hp
  exact ⟨Nat.toDigits_ne_nil, toDigits_free v (by decide)⟩

theorem groupsOf_join {parts : List (List Char)} (h : Parts ':' parts) : groupsOf (join ':' parts) = parts := by
  cases parts with
  | nil => rfl
  | cons p parts =>
    obtain ⟨c, s, hcs, -⟩ := join_head h (List.cons_ne_nil _ _)
    rw [groupsOf, if_neg (by rw [hcs]; exact List.cons_ne_nil _ _), splitOn_join h (List.cons_ne_nil _ _)]

theorem mem_join {sep c : Char} {parts : List (List Char)} (h : c ∈ join sep parts) : c = sep ∨ ∃ p ∈ parts, c ∈ p := by
  induction parts with
  | nil => cases h
  | cons p parts ih =>
    cases parts with
    | nil => exact Or.inr ⟨p, List.mem_cons_self, by simpa [join] using h⟩
    | cons q parts =>
      rw [join_cons_cons] at h
      rcases List.mem_append.mp h with h | h
      · exact Or.inr ⟨p, List.mem_cons_self, h⟩
      · rcases List.mem_cons.mp h with h | h
        · exact Or.inl h
        · exact (ih h).imp_right (Exists.imp fun r hr => hr.imp_left (List.mem_cons_of_mem _))

theorem join_length (sep : Char) {parts : List (List Char)} (h : ∀ p ∈ parts, 1 ≤ p.length ∧ p.length ≤ 4) :
    2 * parts.length ≤ (join sep parts).length + 1 ∧ (join sep parts).length ≤ 5 * parts.length - 1 := by
  induction parts with
  | nil => exact ⟨Nat.zero_le _, Nat.le_refl _⟩
  | cons p parts ih =>
    have hp := h p List.mem_cons_self
    cases parts with
    | nil => simpa [join] using hp
    | cons q parts =>
      obtain ⟨hlow, hhigh⟩ := ih fun r hr => h r (List.mem_cons_of_mem _ hr)
      rw [join_cons_cons]
      simp only [List.length_append, List.length_cons] at hlow hhigh ⊢
      omega

/-- Eight groups of 16 bits. -/
structure Groups (gs : List Nat) : Prop where
  count : gs.length = 8
  small : ∀ v ∈ gs, v < 2 ^ 16

theorem group_length {v : Nat} (h : v < 2 ^ 16) : 1 ≤ (Nat.toDigits 16 v).length ∧ (Nat.toDigits 16 v).length ≤ 4 :=
  ⟨Nat.length_toDigits_pos, (Nat.length_toDigits_le_iff (by decide) (by decide)).mpr h⟩

theorem isGroup_hex {v : Nat} (h : v < 2 ^ 16) : isGroup (Nat.toDigits 16 v) = true := by
  rw [isGroup, Bool.and_eq_true, decide_eq_true_eq, List.all_eq_true]
  exact ⟨group_length h, fun c hc => decide_eq_true ((toDigits_hex v).1 c hc).2⟩

/-- What the form splits into, and which groups are spelled. -/
theorem form_split {gs : List Nat} {text : List Char} (h : Rfc5952 gs text) :
    (splitDouble ':' text = [text] ∧ groupsOf text = gs.map (Nat.toDigits 16)) ∨
    ∃ i n head tail, 2 ≤ n ∧ ZeroRun gs i n ∧ text = head ++ ':' :: ':' :: tail ∧
      splitDouble ':' text = [head, tail] ∧ head = join ':' ((gs.take i).map (Nat.toDigits 16)) ∧
      tail = join ':' ((gs.drop (i + n)).map (Nat.toDigits 16)) := by
  cases h with
  | full _ => exact Or.inl ⟨splitDouble_spaced (join_spaced (parts_hex gs)).1, groupsOf_join (parts_hex gs)⟩
  | shortened i n hn hz =>
    refine Or.inr ⟨i, n, _, _, hn, hz, rfl, ?_, rfl, rfl⟩
    obtain ⟨hs, hl⟩ := join_spaced (parts_hex (gs.take i))
    rw [splitDouble_append hs hl, splitDouble_spaced (join_spaced (parts_hex (gs.drop (i + n)))).1]

theorem form_isIPv6 {gs : List Nat} {text : List Char} (h : Rfc5952 gs text) (hgs : Groups gs) : isIPv6 text = true := by
  have hgroups (vs : List Nat) (hvs : ∀ v ∈ vs, v ∈ gs) : (vs.map (Nat.toDigits 16)).all isGroup = true := by
    rw [List.all_map, List.all_eq_true]
    exact fun v hv => isGroup_hex (hgs.small v (hvs v hv))
  unfold isIPv6
  rcases form_split h with ⟨hsplit, hof⟩ | ⟨i, n, head, tail, hn, hz, -, hsplit, hhead, htail⟩
  · simp only [hsplit, List.flatMap_singleton, hof, hgroups gs fun v hv => hv, List.length_map, hgs.count]
    rfl
  · have hle := hz.1
    have hcount := hgs.count
    have hof : [head, tail].flatMap groupsOf = (gs.take i ++ gs.drop (i + n)).map (Nat.toDigits 16) := by
      rw [List.flatMap_cons, List.flatMap_singleton, hhead, htail, groupsOf_join (parts_hex _), groupsOf_join (parts_hex _),
        List.map_append]
    have hall := hgroups (gs.take i ++ gs.drop (i + n)) fun v hv =>
      (List.mem_append.mp hv).elim List.mem_of_mem_take List.mem_of_mem_drop
    have hlen : (gs.take i ++ gs.drop (i + n)).length ≤ 7 := by
      rw [List.length_append, List.length_take, List.length_drop]
      omega
    simp only [hsplit, hof, hall, List.length_map]
    simpa using hlen

theorem form_chars {gs : List Nat} {text : List Char} (h : Rfc5952 gs text) :
    ∀ c ∈ text, lowerHex c = true ∨ c = ':' := by
  have hjoin (vs : List Nat) : ∀ c ∈ join ':' (vs.map (Nat.toDigits 16)), lowerHex c = true ∨ c = ':' := fun c hc => by
    rcases mem_join hc with hc | ⟨p, hp, hc⟩
    · exact Or.inr hc
    · obtain ⟨v, -, rfl⟩ := List.mem_map.mp hp
      exact Or.inl (decide_eq_true ((toDigits_hex v).1 c hc).2)
  cases h with
  | full _ => exact hjoin gs
  | shortened i n hn hz hl hf =>
    intro c hc
    rcases List.mem_append.mp hc with hc | hc
    · exact hjoin _ c hc
    · rcases List.mem_cons.mp hc with hc | hc
      · exact Or.inr hc
      · rcases List.mem_cons.mp hc with hc | hc
        · exact Or.inr hc
        · exact hjoin _ c hc

theorem ofInt_byte (v : Nat) : UInt8.ofInt (v : Int) = UInt8.ofNat v := by
  rw [← UInt8.toNat_inj, UInt8.ofInt, UInt8.toNat_ofNat', UInt8.toNat_ofNat']
  omega

theorem storeGroups_fill (vs : List Nat) (done : Bytes) (i : Nat) (hd : done.length = 2 * i) :
    storeGroups (done ++ List.replicate (2 * vs.length) 0) i (vs.map fun v : Nat => some (v : Int)) =
      done ++ vs.flatMap writeU16BE := by
  induction vs generalizing done i with
  | nil => simp [storeGroups]
  | cons v vs ih =>
    have hhigh : UInt8.ofInt ((v : Int) / 256) = UInt8.ofNat (v / 2 ^ 8) := by
      rw [show (v : Int) / 256 = ((v / 2 ^ 8 : Nat) : Int) by push_cast; rfl, ofInt_byte]
    have hbuf : ((done ++ List.replicate (2 * (vs.length + 1)) 0).set (2 * i) (UInt8.ofNat (v / 2 ^ 8))).set (2 * i + 1)
        (UInt8.ofNat v) = (done ++ writeU16BE v) ++ List.replicate (2 * vs.length) 0 := by
      rw [show 2 * (vs.length + 1) = 2 * vs.length + 2 by omega, List.replicate_succ, List.replicate_succ, ← hd,
        List.set_append_right _ _ (Nat.le_refl _), Nat.sub_self, List.set_cons_zero,
        List.set_append_right _ _ (Nat.le_succ _), show done.length + 1 - done.length = 1 by omega, List.set_cons_succ, List.set_cons_zero,
        List.append_assoc]
      rfl
    have hrest := ih (done ++ writeU16BE v) (i + 1) (by rw [List.length_append, hd, writeU16BE_length]; omega)
    rw [List.map_cons, storeGroups, Option.getD_some, hhigh, ofInt_byte, List.length_cons, hbuf, hrest,
      List.flatMap_cons, List.append_assoc]

theorem parse_hex (vs : List Nat) : (vs.map (Nat.toDigits 16)).map parseHex = vs.map fun v : Nat => some (v : Int) := by
  rw [List.map_map]
  exact List.map_congr_left fun v _ => parseHex_toDigits v

/-- Around a `::` the zeros it stands for are filled in. -/
theorem fill_zeros {gs : List Nat} {i n : Nat} (hz : ZeroRun gs i n) :
    gs.take i ++ List.replicate n 0 ++ gs.drop (i + n) = gs := by
  have hmid : (gs.drop i).take n = List.replicate n 0 := by
    refine List.eq_replicate_iff.mpr ⟨by rw [List.length_take, List.length_drop]; have := hz.1; omega, fun v hv => ?_⟩
    obtain ⟨k, hk, hval⟩ := List.mem_iff_getElem.mp hv
    have hget : ((gs.drop i).take n)[k]? = some v := by rw [List.getElem?_eq_getElem hk, hval]
    rw [List.length_take] at hk
    rw [List.getElem?_take_of_lt (by omega), List.getElem?_drop, hz.2 (i + k) (by omega) (by omega)] at hget
    exact (Option.some.inj hget).symm
  rw [← hmid, List.append_assoc, ← List.drop_drop, List.take_append_drop, List.take_append_drop]

theorem form_bytes {gs : List Nat} {text : List Char} (h : Rfc5952 gs text) (hgs : Groups gs) :
    ipv6Bytes text = some (gs.flatMap writeU16BE) := by
  have hzone : '%' ∉ text := fun hm => by
    rcases form_chars h '%' hm with hc | hc
    · exact absurd hc (by decide)
    · exact absurd hc (by decide)
  have hstore := storeGroups_fill gs [] 0 rfl
  rw [hgs.count, List.nil_append, List.nil_append] at hstore
  unfold ipv6Bytes
  rw [List.splitOn_eq_singleton hzone, List.headD_cons]
  rcases form_split h with ⟨hsplit, hof⟩ | ⟨i, n, head, tail, hn, hz, -, hsplit, hhead, htail⟩
  · simp only [hsplit, List.headD_cons, hof, parse_hex]
    exact congrArg some hstore
  · have hle := hz.1
    have hcount := hgs.count
    have hfront : (groupsOf head).map parseHex = (gs.take i).map fun v : Nat => some (v : Int) := by
      rw [hhead, groupsOf_join (parts_hex _), parse_hex]
    have hback : (groupsOf tail).map parseHex = (gs.drop (i + n)).map fun v : Nat => some (v : Int) := by
      rw [htail, groupsOf_join (parts_hex _), parse_hex]
    have hlf : ((gs.take i).map fun v : Nat => some (v : Int)).length = i := by
      rw [List.length_map, List.length_take]
      omega
    have hlb : ((gs.drop (i + n)).map fun v : Nat => some (v : Int)).length = 8 - (i + n) := by
      rw [List.length_map, List.length_drop, hcount]
    have hall : ((gs.take i).map fun v : Nat => some (v : Int)) ++ List.replicate (8 - i - (8 - (i + n))) (some 0) ++
        ((gs.drop (i + n)).map fun v : Nat => some (v : Int)) = gs.map fun v : Nat => some (v : Int) := by
      conv_rhs => rw [← fill_zeros hz, List.map_append, List.map_append, List.map_replicate]
      rw [show 8 - i - (8 - (i + n)) = n by omega]
      rfl
    simp only [hsplit, List.headD_cons, hfront, hback, hlf, hlb]
    rw [if_neg (by omega), hall]
    exact congrArg some hstore

/-! ### Sixteen bytes -/

theorem groups_flat (b : Bytes) (start m : Nat) (h : start + 2 * m ≤ b.length) :
    ((List.range m).map fun i => readU16BE b (start + 2 * i)).flatMap writeU16BE = (b.drop start).take (2 * m) := by
  induction m with
  | zero => simp
  | succ m ih =>
    have hpair := (SendBatch.writeU16BE_readU16BE (show start + 2 * m + 2 ≤ b.length by omega)).1
    rw [List.range_succ, List.map_append, List.flatMap_append, ih (by omega), List.map_singleton, List.flatMap_singleton,
      hpair, show 2 * (m + 1) = 2 * m + 2 by omega, List.take_add, List.drop_drop]

theorem groupsAt_groups (b : Bytes) (start : Nat) : Groups (groupsAt b start) where
  count := by simp [groupsAt]
  small := fun v hv => by
    obtain ⟨i, -, rfl⟩ := List.mem_map.mp hv
    have h0 : byteAt b (start + 2 * i) < 2 ^ 8 := (b.getD _ 0).toNat_lt
    have h1 : byteAt b (start + 2 * i + 1) < 2 ^ 8 := (b.getD _ 0).toNat_lt
    unfold readU16BE
    omega

theorem ipv6Bytes_ipv6Text {b : Bytes} (h : b.length = 16) : ipv6Bytes (ipv6Text b 0) = some b := by
  rw [form_bytes (ipv6Text_form b 0) (groupsAt_groups b 0), groupsAt, groups_flat b 0 8 (by omega), List.drop_zero,
    List.take_of_length_le (by omega)]

/-! ### Candidates -/

theorem form_length {gs : List Nat} {text : List Char} (h : Rfc5952 gs text) (hgs : Groups gs) :
    2 ≤ text.length ∧ text.length ≤ 39 ∧ ':' ∈ text := by
  have hcount := hgs.count
  have hparts (vs : List Nat) (hvs : ∀ v ∈ vs, v ∈ gs) : ∀ p ∈ vs.map (Nat.toDigits 16), 1 ≤ p.length ∧ p.length ≤ 4 := by
    intro p hp
    obtain ⟨v, hv, rfl⟩ := List.mem_map.mp hp
    exact group_length (hgs.small v (hvs v hv))
  cases h with
  | full _ =>
    obtain ⟨hlow, hhigh⟩ := join_length ':' (hparts gs fun v hv => hv)
    rw [List.length_map, hcount] at hlow hhigh
    refine ⟨by omega, by omega, ?_⟩
    obtain _ | ⟨v, _ | ⟨w, vs⟩⟩ := gs
    · cases hcount
    · cases hcount
    · rw [List.map_cons, List.map_cons, join_cons_cons]
      exact List.mem_append_right _ List.mem_cons_self
  | shortened i n hn hz hl hf =>
    have hle := hz.1
    obtain ⟨-, hhead⟩ := join_length ':' (hparts (gs.take i) fun v hv => List.mem_of_mem_take hv)
    obtain ⟨-, htail⟩ := join_length ':' (hparts (gs.drop (i + n)) fun v hv => List.mem_of_mem_drop hv)
    rw [List.length_map, List.length_take] at hhead
    rw [List.length_map, List.length_drop] at htail
    refine ⟨?_, ?_, List.mem_append_right _ List.mem_cons_self⟩
    · rw [List.length_append, List.length_cons, List.length_cons]
      omega
    · rw [List.length_append, List.length_cons, List.length_cons]
      omega

/-- A text ends in its last `:` and what has none. -/
theorem last_colon (host : List Char) {port : List Char} (h : ':' ∉ port) :
    ((host ++ ':' :: port).reverse.takeWhile (· ≠ ':')).reverse = port ∧
      (host ++ ':' :: port).reverse.dropWhile (· ≠ ':') = ':' :: host.reverse := by
  have hrev : (host ++ ':' :: port).reverse = port.reverse ++ ':' :: host.reverse := by simp
  have hall : ∀ c ∈ port.reverse, decide (c ≠ ':') = true := fun c hc =>
    decide_eq_true fun he => h (he ▸ List.mem_reverse.mp hc)
  rw [hrev, List.takeWhile_append_of_pos hall, List.dropWhile_append_of_pos hall]
  simp

theorem portDigits {port : Nat} (h : port < 65536) :
    1 ≤ (Nat.toDigits 10 port).length ∧ (Nat.toDigits 10 port).length ≤ 5 ∧
      ∀ c ∈ Nat.toDigits 10 port, isDigit c = true := by
  refine ⟨Nat.length_toDigits_pos, (Nat.length_toDigits_le_iff (by decide) (by decide)).mpr (by omega), fun c hc => ?_⟩
  have hd := Nat.isDigit_of_mem_toDigits (by decide) (by decide) hc
  simp only [Char.isDigit, Bool.and_eq_true, decide_eq_true_eq] at hd
  exact decide_eq_true ⟨UInt32.le_iff_toNat_le.mp hd.1, UInt32.le_iff_toNat_le.mp hd.2⟩

theorem candidateOf_endpoint {gs : List Nat} {text : List Char} (h : Rfc5952 gs text) (hgs : Groups gs) {port : Nat}
    (hpos : 1 ≤ port) (hport : port ≤ 65535) : candidateOf (endpoint text port) = some (addrOf text port) := by
  obtain ⟨hlow, hhigh, hcolon⟩ := form_length h hgs
  obtain ⟨hone, hfive, hdigits⟩ := portDigits (show port < 65536 by omega)
  have hfree : ':' ∉ Nat.toDigits 10 port := fun hm => absurd (hdigits _ hm) (by decide)
  have hstar : Nat.toDigits 10 port ≠ ['*'] := fun he =>
    absurd (hdigits '*' (by rw [he]; exact List.mem_cons_self)) (by decide)
  have hend : endpoint text port = ('[' :: (text ++ [']'])) ++ ':' :: Nat.toDigits 10 port := by
    rw [endpoint, if_pos hcolon]
    simp
  obtain ⟨htake, hdrop⟩ := last_colon ('[' :: (text ++ [']'])) hfree
  have hdot : '.' ∉ '[' :: (text ++ [']']) := by
    intro hm
    simp only [List.mem_cons, List.mem_append, List.not_mem_nil, or_false] at hm
    rcases hm with hm | hm | hm
    · exact absurd hm (by decide)
    · exact (form_chars h '.' hm).elim (fun hc => absurd hc (by decide)) fun hc => absurd hc (by decide)
    · exact absurd hm (by decide)
  have hchars : text.all (fun c => lowerHex c || c = ':') = true := by
    rw [List.all_eq_true]
    intro c hc
    rcases form_chars h c hc with hx | hx
    · rw [hx, Bool.true_or]
    · rw [decide_eq_true hx, Bool.or_true]
  have hmatch : candidateMatch (endpoint text port) = some (none, some text, Nat.toDigits 10 port) := by
    rw [hend]
    unfold candidateMatch
    simp only [htake, hdrop, List.reverse_reverse]
    rw [if_neg (not_not.mpr (Or.inr ⟨hone, hfive, List.all_eq_true.mpr hdigits⟩)), List.splitOn_eq_singleton hdot,
      if_neg (fun hb => absurd hb.1 (show ¬ 1 = 4 by decide))]
    rw [List.dropLast_concat, if_pos ⟨List.getLast?_concat, hlow, hhigh, hchars⟩]
  unfold candidateOf
  rw [hmatch]
  simp only [Option.any_some, form_isIPv6 h hgs, Bool.not_true, Bool.false_eq_true, if_false, Option.or_some,
    Option.getD_some, if_neg hstar, Nat.ofDigitChars_ten_toDigits]
  rw [if_pos ⟨hpos, by omega⟩]
  rfl

end SeedTransport.Address
