import SeedTransport.Core.ReqRes
import SeedTransport.Link.State

set_option autoImplicit false

namespace SeedTransport

/-! The delivery window (`router.js`, `ReqRes.admits`, `hold`, `onFrame` and `respond`): the
requests of peers that wait on `link/deliver`, out of the host-call budget that every seal
and open draws on too. -/

/-- The host-call budget of the realm and the frame cap, as `core.js` reads them. A policy
number that is negative fails the load. -/
structure DeliveryLimits where
  maxOutstandingHostCalls : Nat
  maxOutstandingHostCallBytes : Nat
  maxFrameBytes : ℚ
  calls_pos : 0 < maxOutstandingHostCalls
  frame_nonneg : 0 ≤ maxFrameBytes

namespace DeliveryLimits

def callWeight (L : DeliveryLimits) : ℚ := L.maxOutstandingHostCallBytes / L.maxOutstandingHostCalls

def maxRequestWeight (L : DeliveryLimits) : ℚ := L.maxFrameBytes + PK_LEN + L.callWeight

def deliveryWindow (L : DeliveryLimits) : ℚ := L.maxOutstandingHostCallBytes - 2 * L.maxRequestWeight

theorem callWeight_nonneg (L : DeliveryLimits) : 0 ≤ L.callWeight := by
  unfold callWeight
  positivity

theorem callWeight_mul (L : DeliveryLimits) :
    L.maxOutstandingHostCalls * L.callWeight = L.maxOutstandingHostCallBytes := by
  have h : (L.maxOutstandingHostCalls : ℚ) ≠ 0 := by
    have := L.calls_pos
    positivity
  unfold callWeight
  field_simp

end DeliveryLimits

/-- An identity key. -/
abbrev PubKey : Type := { pk : Bytes // pk.length = PK_LEN }

/-- A request frame, taken apart. -/
structure Request where
  corr : Nat
  noReply : Bool
  proto : Bytes
  payload : Bytes
  deriving DecidableEq

/-- What waits for the answer to one `link/deliver`: `args` are the bytes of the call, the
rest is what its continuation closes over. -/
structure Deliver where
  peer : PubKey
  corr : Nat
  noReply : Bool
  link : Nat
  weight : ℚ
  args : Bytes
  deriving DecidableEq

/-- The last two are for an observer: the delivers that are not settled yet, and the
responses sent, with the peer and the link they go to. -/
structure Deliveries where
  limits : DeliveryLimits
  delivering : OrdMap PubKey ℚ
  deliveringWeight : ℚ
  waiting : List Deliver
  responses : List (PubKey × Nat × Bytes)

namespace Deliveries

open ReqRes

def KIND_CTL : UInt8 := 0x02
def REQ_HEAD_LEN : Nat := 1 + 4 + 1
def REQ_PROTO_LEN_AT : Nat := REQ_HEAD_LEN - 1

def create (L : DeliveryLimits) : Deliveries := ⟨L, .empty, 0, [], []⟩

/-- What `peer` has waiting. -/
def mine (peer : PubKey) (s : Deliveries) : ℚ := (s.delivering.get peer).getD 0

def admits (peer : PubKey) (weight : ℚ) (s : Deliveries) : Bool :=
  if s.mine peer = 0 then decide (s.deliveringWeight + weight ≤ s.limits.deliveryWindow)
  else
    decide (s.deliveringWeight + weight ≤ s.limits.deliveryWindow - s.limits.maxRequestWeight) &&
      decide (s.mine peer + weight ≤ s.limits.deliveryWindow / s.delivering.size)

def hold (peer : PubKey) (weight : ℚ) (s : Deliveries) : Deliveries :=
  let mine := s.mine peer + weight
  { s with
    delivering := if 0 < mine then s.delivering.set peer mine else s.delivering.delete peer
    deliveringWeight := s.deliveringWeight + weight }

/-- An answer too big for one record is sent back empty. -/
def respond (corr : Nat) (noReply : Bool) (peer : PubKey) (link : Nat) (payload : Bytes)
    (s : Deliveries) : Deliveries :=
  if noReply then s
  else
    let fits := decide (((RES_HEAD_LEN + payload.length : Nat) : ℚ) ≤ s.limits.maxFrameBytes - TAG_LEN)
    let frame := [KIND_RES] ++ writeU32BE corr ++ (if fits then payload else [])
    { s with responses := s.responses ++ [(peer, link, frame)] }

/-- The request in a frame, if it is one: the checks of `onFrame` up to its payload. -/
def readReq (frame : Bytes) : Option Request :=
  let kind := frame.headD 0
  if frame.length < RES_HEAD_LEN then none
  else if kind &&& KIND_RES ≠ 0 then none
  else if frame.length < REQ_HEAD_LEN then none
  else
    let idLen := byteAt frame REQ_PROTO_LEN_AT
    if frame.length < REQ_HEAD_LEN + idLen then none
    else
      some
        { corr := readU32BE frame 1
          noReply := decide (kind &&& FLAG_NO_REPLY ≠ 0)
          proto := (frame.drop REQ_HEAD_LEN).take idLen
          payload := frame.drop (REQ_HEAD_LEN + idLen) }

/-- The argument of `netLinkDeliver`. -/
def deliverArgs (r : Request) (fromPubkey : PubKey) : Bytes :=
  [UInt8.ofNat r.proto.length] ++ r.proto ++ fromPubkey.val ++ r.payload

def requestWeight (L : DeliveryLimits) (r : Request) : ℚ :=
  ((1 + r.proto.length + PK_LEN + r.payload.length : Nat) : ℚ) + L.callWeight

/-- A deliver is made, and is counted. -/
def enter (d : Deliver) (s : Deliveries) : Deliveries :=
  { s.hold d.peer d.weight with waiting := s.waiting ++ [d] }

/-- A deliver is settled. -/
def leave (d : Deliver) (s : Deliveries) : Deliveries :=
  { s.hold d.peer (-d.weight) with waiting := s.waiting.erase d }

/-- `onFrame`, for a request. `throws` is a `link/deliver` the host refuses as it is made. -/
def onFrame (peer : PubKey) (link : Nat) (frame : Bytes) (throws : Bool) (s : Deliveries) :
    Deliveries :=
  match readReq frame with
  | none => s
  | some r =>
    let weight := requestWeight s.limits r
    if !s.admits peer weight then s.respond r.corr r.noReply peer link []
    else if throws then s
    else s.enter ⟨peer, r.corr, r.noReply, link, weight, deliverArgs r peer⟩

/-- The answer to a deliver comes, or none does. -/
def done (d : Deliver) (bytes : Option Bytes) (s : Deliveries) : Deliveries :=
  if d ∈ s.waiting then (s.leave d).respond d.corr d.noReply d.peer d.link (bytes.getD []) else s

inductive Event where
  /-- A record of an authenticated link opened to `frame`. -/
  | record (peer : PubKey) (link : Nat) (frame : Bytes) (throws : Bool)
  | settled (d : Deliver) (bytes : Option Bytes)

/-- A record over the cap aborts its link, an empty one is the goodbye, and a control frame
goes elsewhere. -/
def step (s : Deliveries) : Event → Deliveries
  | .record peer link frame throws =>
    if s.limits.maxFrameBytes < ((frame.length + TAG_LEN : Nat) : ℚ) then s
    else if frame = [] ∨ frame.headD 0 = KIND_CTL then s
    else s.onFrame peer link frame throws
  | .settled d bytes => s.done d bytes

def run (s : Deliveries) (evs : List Event) : Deliveries := evs.foldl step s

/-! ### What the books say -/

/-- The weight of `peer`'s requests that wait. -/
def share (peer : PubKey) (waiting : List Deliver) : ℚ :=
  ((waiting.filter fun d => d.peer = peer).map Deliver.weight).sum

def total (waiting : List Deliver) : ℚ := (waiting.map Deliver.weight).sum

/-- The weight of a deliver is that of its bytes and of its call, and it came in one record. -/
structure Weighed (L : DeliveryLimits) (d : Deliver) : Prop where
  weight : d.weight = d.args.length + L.callWeight
  pos : 0 < d.args.length
  capped : d.weight ≤ L.maxRequestWeight

structure Booked (s : Deliveries) : Prop where
  weighed : ∀ d ∈ s.waiting, Weighed s.limits d
  books : ∀ peer, s.delivering.get peer =
    if ∃ d ∈ s.waiting, d.peer = peer then some (share peer s.waiting) else none
  sums : s.deliveringWeight = total s.waiting
  within : s.waiting ≠ [] → s.deliveringWeight ≤ s.limits.deliveryWindow
  fair : ∀ peer, share peer s.waiting ≤
    max s.limits.maxRequestWeight (s.limits.deliveryWindow - s.limits.maxRequestWeight)

section Sums

variable {L : DeliveryLimits} {ws : List Deliver}

theorem Weighed.pos_weight {d : Deliver} (h : Weighed L d) : 0 < d.weight := by
  rw [h.weight]
  have h1 : (0 : ℚ) < d.args.length := by exact_mod_cast h.pos
  have h2 := L.callWeight_nonneg
  linarith

theorem share_nonneg (h : ∀ d ∈ ws, Weighed L d) (peer : PubKey) : 0 ≤ share peer ws := by
  refine List.sum_nonneg fun w hw => ?_
  obtain ⟨d, hd, rfl⟩ := List.mem_map.1 hw
  exact (h d (List.mem_of_mem_filter hd)).pos_weight.le

theorem share_append (peer : PubKey) (d : Deliver) :
    share peer (ws ++ [d]) = share peer ws + if d.peer = peer then d.weight else 0 := by
  unfold share
  by_cases hd : d.peer = peer <;> simp [List.filter_append, hd]

theorem share_erase {d : Deliver} (hd : d ∈ ws) (peer : PubKey) :
    share peer ws = share peer (ws.erase d) + if d.peer = peer then d.weight else 0 := by
  have hp : (ws.filter fun d => d.peer = peer).Perm ((d :: ws.erase d).filter fun d => d.peer = peer) :=
    (List.perm_cons_erase hd).filter _
  unfold share
  rw [(hp.map Deliver.weight).sum_eq]
  by_cases he : d.peer = peer
  · simp [he, add_comm]
  · simp [he]

theorem total_append (d : Deliver) : total (ws ++ [d]) = total ws + d.weight := by
  simp [total]

theorem total_erase {d : Deliver} (hd : d ∈ ws) : total ws = total (ws.erase d) + d.weight := by
  unfold total
  rw [((List.perm_cons_erase hd).map Deliver.weight).sum_eq]
  simp [add_comm]

/-- A peer that waits has a share, and one that has a share waits. -/
theorem share_pos (h : ∀ d ∈ ws, Weighed L d) (peer : PubKey) :
    0 < share peer ws ↔ ∃ d ∈ ws, d.peer = peer := by
  constructor
  · intro hs
    by_contra hn
    push Not at hn
    have : ws.filter (fun d => d.peer = peer) = [] := List.filter_eq_nil_iff.2 fun d hd => by simp [hn d hd]
    simp [share, this] at hs
  · rintro ⟨d, hd, rfl⟩
    rw [share_erase hd]
    have h1 : 0 ≤ share d.peer (ws.erase d) :=
      share_nonneg (fun e he => h e (List.mem_of_mem_erase he)) d.peer
    have h2 := (h d hd).pos_weight
    simp only [if_true]
    linarith

theorem share_le_total (h : ∀ d ∈ ws, Weighed L d) (peer : PubKey) : share peer ws ≤ total ws := by
  unfold share total
  refine (List.filter_sublist.map Deliver.weight).sum_le_sum fun w hw => ?_
  obtain ⟨d, hd, rfl⟩ := List.mem_map.1 hw
  exact (h d hd).pos_weight.le

/-- When all that waits is one peer's, the total is its share. -/
theorem total_eq_share {peer : PubKey} (h : ∀ d ∈ ws, d.peer = peer) : total ws = share peer ws := by
  unfold share total
  rw [List.filter_eq_self.2 fun d hd => by simp [h d hd]]

end Sums

section Steps

variable {s : Deliveries}

theorem Booked.mine (h : Booked s) (peer : PubKey) : s.mine peer = share peer s.waiting := by
  unfold Deliveries.mine
  rw [h.books]
  split
  · rfl
  · rename_i hn
    have := (share_pos h.weighed peer).not.2 hn
    exact (le_antisymm (not_lt.1 this) (share_nonneg h.weighed peer)).symm

/-- The map a hold leaves, when the shares move as its weight says. -/
theorem get_hold (h : Booked s) (peer : PubKey) (weight : ℚ) (peer' : PubKey) :
    (s.hold peer weight).delivering.get peer' =
      if peer' = peer then (if 0 < share peer s.waiting + weight then some (share peer s.waiting + weight) else none)
      else s.delivering.get peer' := by
  unfold hold
  rw [← h.mine peer]
  simp only
  by_cases hpos : 0 < s.mine peer + weight
  · rw [if_pos hpos, if_pos hpos, OrdMap.get_set]
  · rw [if_neg hpos, if_neg hpos, OrdMap.get_delete]

theorem respond_same (corr : Nat) (noReply : Bool) (peer : PubKey) (link : Nat) (payload : Bytes) :
    ∃ rs, s.respond corr noReply peer link payload = { s with responses := rs } := by
  unfold respond
  split
  · exact ⟨_, rfl⟩
  · exact ⟨_, rfl⟩

theorem Booked.respond (h : Booked s) (corr : Nat) (noReply : Bool) (peer : PubKey) (link : Nat)
    (payload : Bytes) : Booked (s.respond corr noReply peer link payload) := by
  obtain ⟨rs, he⟩ := respond_same (s := s) corr noReply peer link payload
  rw [he]
  exact ⟨h.weighed, h.books, h.sums, h.within, h.fair⟩

/-- The length of a frame is that of its head, its protocol id and its payload. -/
theorem readReq_length {frame : Bytes} {r : Request} (h : readReq frame = some r) :
    frame.length = REQ_HEAD_LEN + r.proto.length + r.payload.length := by
  unfold readReq at h
  simp only at h
  split at h
  · simp at h
  · split at h
    · simp at h
    · split at h
      · simp at h
      · split at h
        · simp at h
        · obtain rfl := Option.some.inj h
          simp only [List.length_take, List.length_drop]
          omega

theorem weighed_request {L : DeliveryLimits} {frame : Bytes} {r : Request} (h : readReq frame = some r)
    (hcap : ((frame.length + TAG_LEN : Nat) : ℚ) ≤ L.maxFrameBytes) (peer : PubKey) (link : Nat) :
    Weighed L ⟨peer, r.corr, r.noReply, link, requestWeight L r, deliverArgs r peer⟩ := by
  have hlen := readReq_length h
  have hargs : (deliverArgs r peer).length = 1 + r.proto.length + PK_LEN + r.payload.length := by
    simp only [deliverArgs, List.length_append, List.length_singleton, peer.property]
  refine ⟨?_, ?_, ?_⟩
  · simp only [requestWeight, hargs]
  · simp only [hargs]
    omega
  · simp only [requestWeight, DeliveryLimits.maxRequestWeight]
    have hle : 1 + r.proto.length + PK_LEN + r.payload.length ≤ frame.length + TAG_LEN + PK_LEN := by
      unfold REQ_HEAD_LEN at hlen
      omega
    have hle' : ((1 + r.proto.length + PK_LEN + r.payload.length : Nat) : ℚ) ≤
        ((frame.length + TAG_LEN : Nat) : ℚ) + PK_LEN := by
      exact_mod_cast hle
    linarith

/-- What `admits` says, in terms of what waits. -/
theorem Booked.admits_iff (h : Booked s) (peer : PubKey) (weight : ℚ) : s.admits peer weight = true ↔
    if share peer s.waiting = 0 then total s.waiting + weight ≤ s.limits.deliveryWindow
    else total s.waiting + weight ≤ s.limits.deliveryWindow - s.limits.maxRequestWeight ∧
      share peer s.waiting + weight ≤ s.limits.deliveryWindow / s.delivering.size := by
  unfold admits
  rw [h.mine, h.sums]
  split <;> simp

theorem maxRequestWeight_nonneg (L : DeliveryLimits) : 0 ≤ L.maxRequestWeight := by
  have h1 := L.callWeight_nonneg
  have h2 := L.frame_nonneg
  unfold DeliveryLimits.maxRequestWeight
  positivity

/-- An admitted request joins what waits. -/
theorem Booked.enter (h : Booked s) {d : Deliver} (hd : Weighed s.limits d)
    (hadmits : s.admits d.peer d.weight = true) : Booked (s.enter d) := by
  have hpos := hd.pos_weight
  have hm := maxRequestWeight_nonneg s.limits
  rw [h.admits_iff] at hadmits
  unfold Deliveries.enter
  refine ⟨fun e he => ?_, fun peer => ?_, ?_, fun _ => ?_, fun peer => ?_⟩
  · rcases List.mem_append.1 he with he | he
    · exact h.weighed e he
    · rw [List.mem_singleton.1 he]
      exact hd
  · have hget := get_hold h d.peer d.weight peer
    have hshare := share_nonneg h.weighed d.peer
    simp only at hget ⊢
    rw [hget, share_append]
    by_cases hp : peer = d.peer
    · subst hp
      rw [if_pos rfl, if_pos (by linarith), if_pos ⟨d, by simp, rfl⟩, if_pos rfl]
    · rw [if_neg hp, h.books, if_neg (Ne.symm hp), add_zero]
      refine if_congr ⟨?_, ?_⟩ rfl rfl
      · rintro ⟨e, he, hep⟩
        exact ⟨e, List.mem_append_left _ he, hep⟩
      · rintro ⟨e, he, hep⟩
        rcases List.mem_append.1 he with he | he
        · exact ⟨e, he, hep⟩
        · exact absurd ((List.mem_singleton.1 he) ▸ hep).symm hp
  · simp only [hold, total_append, h.sums]
  · simp only [hold, h.sums]
    split at hadmits
    · exact hadmits
    · linarith [hadmits.1]
  · have hfair := h.fair peer
    rw [share_append]
    by_cases hp : d.peer = peer
    · subst hp
      rw [if_pos rfl]
      simp only [hold]
      split at hadmits
      · rename_i hzero
        rw [hzero, zero_add]
        exact hd.capped.trans (le_max_left _ _)
      · exact le_max_of_le_right (by linarith [hadmits.1, share_le_total h.weighed d.peer])
    · rw [if_neg hp, add_zero]
      exact hfair

/-- An answered request leaves it. -/
theorem Booked.leave (h : Booked s) {d : Deliver} (hd : d ∈ s.waiting) : Booked (s.leave d) := by
  have hweighed : ∀ e ∈ s.waiting.erase d, Weighed s.limits e := fun e he =>
    h.weighed e (List.mem_of_mem_erase he)
  have hpos := (h.weighed d hd).pos_weight
  unfold Deliveries.leave
  refine ⟨hweighed, fun peer => ?_, ?_, fun _ => ?_, fun peer => ?_⟩
  · have hget := get_hold h d.peer (-d.weight) peer
    have hshare := share_erase hd peer
    simp only at hget ⊢
    rw [hget]
    by_cases hp : peer = d.peer
    · subst hp
      rw [if_pos rfl] at hshare
      have he : share d.peer s.waiting + -d.weight = share d.peer (s.waiting.erase d) := by linarith
      rw [if_pos rfl, he]
      exact if_congr (share_pos hweighed d.peer) rfl rfl
    · rw [if_neg hp, h.books]
      rw [if_neg (Ne.symm hp), add_zero] at hshare
      rw [hshare]
      exact if_congr (by rw [← share_pos h.weighed, ← share_pos hweighed, hshare]) rfl rfl
  · simp only [hold, h.sums]
    linarith [total_erase hd]
  · have hne : s.waiting ≠ [] := List.ne_nil_of_mem hd
    have hw := h.within hne
    simp only [hold]
    linarith
  · have hfair := h.fair peer
    have hshare := share_erase hd peer
    simp only [hold]
    split at hshare <;> linarith

theorem Booked.onFrame (h : Booked s) (peer : PubKey) (link : Nat) {frame : Bytes} (throws : Bool)
    (hcap : ((frame.length + TAG_LEN : Nat) : ℚ) ≤ s.limits.maxFrameBytes) :
    Booked (s.onFrame peer link frame throws) := by
  unfold Deliveries.onFrame
  split
  · exact h
  · rename_i r hr
    simp only
    split
    · exact h.respond _ _ _ _ _
    · rename_i hadmits
      split
      · exact h
      · have hd := weighed_request hr hcap peer link
        have hin : s.admits peer (requestWeight s.limits r) = true := by
          simpa using hadmits
        exact h.enter hd hin

theorem Booked.step (h : Booked s) (e : Event) : Booked (s.step e) := by
  cases e with
  | record peer link frame throws =>
    simp only [Deliveries.step]
    split
    · exact h
    · rename_i hcap
      split
      · exact h
      · exact h.onFrame peer link throws (not_lt.1 hcap)
  | settled d bytes =>
    simp only [Deliveries.step, done]
    split
    · rename_i hd
      exact (h.leave hd).respond _ _ _ _ _
    · exact h

theorem booked_create (L : DeliveryLimits) : Booked (create L) := by
  refine ⟨fun d hd => ?_, fun peer => ?_, ?_, fun hn => ?_, fun peer => ?_⟩
  · simp [create] at hd
  · simp [create]
  · simp [create, total]
  · exact absurd rfl hn
  · exact le_max_of_le_left (by simpa [create, share] using maxRequestWeight_nonneg L)

theorem Booked.run (h : Booked s) (evs : List Event) : Booked (s.run evs) := by
  induction evs generalizing s with
  | nil => exact h
  | cons e evs ih => exact ih (h.step e)

/-! ### The host-call budget -/

theorem limits_step (e : Event) : (s.step e).limits = s.limits := by
  have hrespond : ∀ (s : Deliveries) corr noReply peer link payload,
      (s.respond corr noReply peer link payload).limits = s.limits := by
    intro s corr noReply peer link payload
    obtain ⟨rs, he⟩ := respond_same (s := s) corr noReply peer link payload
    rw [he]
  cases e with
  | record peer link frame throws =>
    simp only [Deliveries.step, Deliveries.onFrame]
    split
    · rfl
    · split
      · rfl
      · split
        · rfl
        · split
          · exact hrespond _ _ _ _ _ _
          · split <;> rfl
  | settled d bytes =>
    simp only [Deliveries.step, done]
    split
    · exact hrespond _ _ _ _ _ _
    · rfl

theorem limits_run (evs : List Event) : (s.run evs).limits = s.limits := by
  induction evs generalizing s with
  | nil => rfl
  | cons e evs ih =>
    show ((s.step e).run evs).limits = s.limits
    rw [ih, limits_step]

/-- The bytes of the delivers that wait. -/
def heldBytes (waiting : List Deliver) : Nat := (waiting.map fun d => d.args.length).sum

theorem total_eq {L : DeliveryLimits} {ws : List Deliver} (h : ∀ d ∈ ws, Weighed L d) :
    total ws = heldBytes ws + ws.length * L.callWeight := by
  induction ws with
  | nil => simp [total, heldBytes]
  | cons d ws ih =>
    have hd := (h d (by simp)).weight
    have := ih fun e he => h e (List.mem_cons_of_mem _ he)
    unfold total heldBytes at *
    simp only [List.map_cons, List.sum_cons, List.length_cons, Nat.cast_add, Nat.cast_one]
    rw [this, hd]
    ring

/-- What the window leaves of the budget. -/
theorem Booked.headroom (h : Booked s) (hwindow : s.deliveringWeight ≤ s.limits.deliveryWindow) :
    s.waiting.length + 2 ≤ s.limits.maxOutstandingHostCalls ∧
      (heldBytes s.waiting : ℚ) + 2 * (s.limits.maxFrameBytes + PK_LEN) ≤
        s.limits.maxOutstandingHostCallBytes := by
  have hcw := s.limits.callWeight_nonneg
  have hmul := s.limits.callWeight_mul
  have hframe := s.limits.frame_nonneg
  rw [h.sums, total_eq h.weighed] at hwindow
  unfold DeliveryLimits.deliveryWindow DeliveryLimits.maxRequestWeight at hwindow
  have hheld : (0 : ℚ) ≤ heldBytes s.waiting := by positivity
  have hlen : (0 : ℚ) ≤ s.waiting.length * s.limits.callWeight := by positivity
  refine ⟨?_, by linarith⟩
  -- every call left over would weigh more than the budget has
  by_contra hn
  have hcalls : (s.limits.maxOutstandingHostCalls : ℚ) ≤ s.waiting.length + 2 := by
    exact_mod_cast (not_le.1 hn).le
  have := mul_le_mul_of_nonneg_right hcalls hcw
  have hpk : (0 : ℚ) < PK_LEN := by norm_num [PK_LEN]
  linarith

/-- With only one peer waiting, another finds room. -/
theorem Booked.admits_other (h : Booked s)
    (hroom : 2 * s.limits.maxRequestWeight ≤ s.limits.deliveryWindow) {peer peer' : PubKey}
    (hall : ∀ d ∈ s.waiting, d.peer = peer) (hne : peer' ≠ peer) {weight : ℚ}
    (hweight : weight ≤ s.limits.maxRequestWeight) : s.admits peer' weight = true := by
  have hnone : share peer' s.waiting = 0 := by
    have := (share_pos h.weighed peer').not.2 (by
      rintro ⟨d, hd, rfl⟩
      exact hne (hall d hd))
    exact le_antisymm (not_lt.1 this) (share_nonneg h.weighed peer')
  have hfair := h.fair peer
  rw [max_eq_right (by linarith)] at hfair
  rw [h.admits_iff, if_pos hnone, total_eq_share hall]
  linarith

end Steps

/-- After any records and answers: each peer's entry is the weight of its requests that wait,
and the total theirs; with a window that is not negative the total keeps to it, and so leaves
the host-call budget two calls and room for two records, and with a negative one nothing
waits. Where the window holds two requests, one peer alone keeps no other out. -/
theorem window_kept (L : DeliveryLimits) (evs : List Event) :
    (∀ peer, ((create L).run evs).delivering.get peer =
      if ∃ d ∈ ((create L).run evs).waiting, d.peer = peer
      then some (share peer ((create L).run evs).waiting) else none) ∧
    ((create L).run evs).deliveringWeight = total ((create L).run evs).waiting ∧
    (0 ≤ L.deliveryWindow →
      ((create L).run evs).deliveringWeight ≤ L.deliveryWindow ∧
      ((create L).run evs).waiting.length + 2 ≤ L.maxOutstandingHostCalls ∧
      (heldBytes ((create L).run evs).waiting : ℚ) + 2 * (L.maxFrameBytes + PK_LEN) ≤
        L.maxOutstandingHostCallBytes) ∧
    (L.deliveryWindow < 0 → ((create L).run evs).waiting = []) ∧
    (2 * L.maxRequestWeight ≤ L.deliveryWindow → ∀ peer peer' link frame r,
      (∀ d ∈ ((create L).run evs).waiting, d.peer = peer) → peer' ≠ peer →
      readReq frame = some r → frame.headD 0 ≠ KIND_CTL →
      ((frame.length + TAG_LEN : Nat) : ℚ) ≤ L.maxFrameBytes →
      ((create L).run evs).step (.record peer' link frame false) =
        ((create L).run evs).enter
          ⟨peer', r.corr, r.noReply, link, requestWeight L r, deliverArgs r peer'⟩) := by
  have h := (booked_create L).run evs
  have hl : ((create L).run evs).limits = L := limits_run evs
  generalize (create L).run evs = s at h hl ⊢
  subst hl
  have hwindow : 0 ≤ s.limits.deliveryWindow → s.deliveringWeight ≤ s.limits.deliveryWindow := by
    intro hpos
    by_cases hw : s.waiting = []
    · rw [h.sums, hw]
      simpa [total] using hpos
    · exact h.within hw
  refine ⟨h.books, h.sums, fun hpos => ⟨hwindow hpos, h.headroom (hwindow hpos)⟩, fun hneg => ?_, ?_⟩
  · by_contra hw
    have hle := h.within hw
    have hnonneg : 0 ≤ total s.waiting := by
      have := share_le_total h.weighed (s.waiting.head hw).peer
      exact (share_nonneg h.weighed _).trans this
    rw [h.sums] at hle
    linarith
  · intro hroom peer peer' link frame r hall hne hr hctl hcap
    have hadmits := h.admits_other hroom hall hne (weighed_request hr hcap peer' link).capped
    have hnil : frame ≠ [] := by
      rintro rfl
      simp [readReq, RES_HEAD_LEN] at hr
    simp only [step, onFrame, hr]
    rw [if_neg (not_lt.2 hcap), if_neg (not_or.2 ⟨hnil, hctl⟩)]
    simp [hadmits]

/-- A frame cap of 8 MiB beside the host's own budget. -/
def wideLimits : DeliveryLimits where
  maxOutstandingHostCalls := 256
  maxOutstandingHostCallBytes := 16777216
  maxFrameBytes := 8388608
  calls_pos := by decide
  frame_nonneg := by norm_num

/-- The window is negative there, and what waits, nothing, is above it. -/
theorem wide_frames_exceed : wideLimits.deliveryWindow < (create wideLimits).deliveringWeight := by
  norm_num [wideLimits, create, DeliveryLimits.deliveryWindow, DeliveryLimits.maxRequestWeight,
    DeliveryLimits.callWeight, PK_LEN]

end Deliveries

end SeedTransport
