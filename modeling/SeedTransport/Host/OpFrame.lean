import SeedTransport.Core.ReqRes

set_option autoImplicit false

namespace SeedTransport

/-! The two readers of an app's call to the transport: the host's check of what it sends
under (`op-frame.ts`, `shell-core.ts`), and the transport's own entry (`core.js`, and the
`Reader` of `util.js`). -/

/-- `String.fromCharCode` over bytes. -/
def text (b : Bytes) : String := String.ofList (b.map fun c => Char.ofNat c.toNat)

/-- `Uint8Array.subarray`, which clamps. -/
def subarray (b : Bytes) (start stop : Nat) : Bytes := (b.drop start).take (stop - start)

/-! ### The envelope -/

structure Called where
  fromHost : Bool
  caller : Bytes
  body : Bytes

/-- Split a `handle` argument; the host's id is all zeros. -/
def callerOf (arg : Bytes) : Called where
  fromHost := decide (arg.take 32 = List.replicate 32 0)
  caller := arg.take 32
  body := arg.drop 32

/-- `[opLen u8][op ascii][args ...]` -/
def readOp : Bytes → Except String (String × Bytes)
  | [] => .error "op-frame: malformed op envelope"
  | n :: rest =>
    if rest.length < n.toNat then .error "op-frame: malformed op envelope"
    else .ok (text (rest.take n.toNat), rest.drop n.toNat)

/-! ### The host's reader -/

def blobEnd (args : Bytes) (start : Nat) : Except String Nat :=
  if args.length < start + 4 ∨ args.length < start + 4 + readU32BE args start then
    .error "op-frame: malformed send"
  else .ok (start + 4 + readU32BE args start)

/-- The protocol that `send` sends under, or `none` for any other op. -/
def sendProtocol (body : Bytes) : Except String (Option String) :=
  match readOp body with
  | .error e => .error e
  | .ok (op, args) =>
    if op ≠ "send" then .ok none
    else
      match blobEnd args 1 with
      | .error e => .error e
      | .ok start =>
        match blobEnd args start with
        | .error e => .error e
        | .ok stop => .ok (some (text (subarray args (start + 4) stop)))

def isClaimHead (c : Char) : Bool := c.isAlphanum || c = '_'

def isClaimTail (c : Char) : Bool := c.isAlphanum || c = '.' || c = '_' || c = '/' || c = '-'

/-- `CLAIM_RE` -/
def isClaim (s : String) : Bool :=
  match s.toList with
  | [] => false
  | c :: cs => isClaimHead c && decide (cs.length ≤ 63) && cs.all isClaimTail

/-- A name that a manifest may claim. -/
abbrev Claim := { s : String // isClaim s = true }

def hexChar (n : Nat) : Char := (Nat.toDigits 16 n).headD '0'

/-- `JSON.stringify` of a string of bytes. -/
def jsonString (s : String) : String :=
  let char (c : Char) : List Char :=
    if c = '"' then ['\\', '"'] else if c = '\\' then ['\\', '\\']
    else if c.toNat = 8 then ['\\', 'b'] else if c.toNat = 12 then ['\\', 'f']
    else if c = '\n' then ['\\', 'n'] else if c = '\r' then ['\\', 'r']
    else if c = '\t' then ['\\', 't']
    else if c.toNat < 32 then ['\\', 'u', '0', '0', hexChar (c.toNat / 16), hexChar (c.toNat % 16)]
    else [c]
  String.ofList ('"' :: (s.toList.flatMap char ++ ['"']))

/-- A slot's call: to the link occupant it sends only under the protocols it claims. -/
def sendsOwn {α : Type} (app : String) (protocols : List Claim) (links : Bool)
    (call : Bytes → Except String α) (payload : Bytes) : Except String α :=
  match if links then sendProtocol payload else .ok none with
  | .error e => .error e
  | .ok none => call payload
  | .ok (some protocol) =>
    if protocol ∈ protocols.map Subtype.val then call payload
    else
      .error ("shell: " ++ app ++ " does not claim " ++ jsonString protocol ++
        ", so it may not send under it")

/-! ### The transport's reader -/

structure Reader where
  b : Bytes
  off : Nat

namespace Reader

/-- A byte past the end is `undefined`. -/
def u8 (r : Reader) : Option UInt8 × Reader := (r.b[r.off]?, { r with off := r.off + 1 })

def u32 (r : Reader) : Nat × Reader := (readU32BE r.b r.off, { r with off := r.off + 4 })

def blob (r : Reader) : Bytes × Reader :=
  let (n, r) := r.u32
  (subarray r.b r.off (r.off + n), { r with off := r.off + n })

def PK_LEN : Nat := 32

/-- A blob that must be a peer id. -/
def peer (op : String) (r : Reader) : Except String (Bytes × Reader) :=
  let (b, r) := r.blob
  if b.length ≠ PK_LEN then .error ("transport: " ++ op ++ " needs a 32-byte peer id") else .ok (b, r)

end Reader

/-- What an entry comes to: a request frame for a peer, or another op's work. -/
inductive Entered where
  | sent (peer frame : Bytes)
  | other (op : String) (args : Bytes)
  deriving DecidableEq

namespace ReqRes

def REQ_HEAD_LEN : Nat := 1 + 4 + 1
def REQ_PROTO_LEN_AT : Nat := REQ_HEAD_LEN - 1
def TAG_LEN : Nat := 16

/-- `send` with its first two fields read. The frame is built here, and goes as it is to a
link or waits for one. -/
def sendTo (noReply : Bool) (peer : Bytes) (rd : Reader) (r : ReqRes) : Except String Entered :=
  let proto := rd.blob
  let payload := proto.2.blob
  if 0xff < proto.1.length then .error "transport: protocol id too long"
  else if r.maxFrameBytes - TAG_LEN < REQ_HEAD_LEN + proto.1.length + payload.1.length then
    .error "transport: send over the frame cap"
  else
    let corr := if noReply then 0 else r.nextCorr
    .ok (.sent peer (buildReq corr noReply proto.1 payload.1))

/-- The `send` op. -/
def send (args : Bytes) (r : ReqRes) : Except String Entered :=
  let noReply := (Reader.mk args 0).u8
  (noReply.2.peer "send").bind fun to' =>
    r.sendTo (decide (noReply.1 = some 1)) to'.1 to'.2

def ops : List String :=
  ["wake", "linkOpen", "linkBytes", "linkClosed", "datagrams", "send", "addr", "dial", "ice", "relay",
    "tell", "relayState", "contact", "secrets", "forget", "ready", "peers", "routes"]

def APP_OPS : List String := ["send", "peers"]

/-- The one entrypoint. -/
def handle (arg : Bytes) (r : ReqRes) : Except String Entered :=
  let c := callerOf arg
  match readOp c.body with
  | .error e => .error e
  | .ok (op, args) =>
    if op ∉ ops then .error ("transport: no op '" ++ op ++ "'")
    else if c.fromHost = false ∧ op ∉ APP_OPS then
      .error ("transport: '" ++ op ++ "' is the host's, not an app's")
    else if op = "send" then r.send args
    else .ok (.other op args)

/-- The protocol that the far end reads in a request frame (`onFrame`). -/
def protoOf (frame : Bytes) : Option Bytes :=
  if frame.length < REQ_HEAD_LEN then none
  else
    let idLen := byteAt frame REQ_PROTO_LEN_AT
    if frame.length < REQ_HEAD_LEN + idLen then none
    else some (subarray frame REQ_HEAD_LEN (REQ_HEAD_LEN + idLen))

end ReqRes

/-- An app's id, a hash of its label. -/
abbrev AppId := { b : Bytes // b.length = 32 }

/-- An app's `host.call` to the link occupant. -/
def appCall (app : String) (protocols : List Claim) (caller : AppId) (body : Bytes) (r : ReqRes) :
    Except String Entered :=
  sendsOwn app protocols true (fun payload => r.handle (caller.1 ++ payload)) body

/-! ### What the readers agree on -/

/-- The bytes a claim is written in. -/
def claimBytes (s : String) : Bytes := s.toList.flatMap String.utf8EncodeChar

theorem char_toNat (b : UInt8) : (Char.ofNat b.toNat).toNat = b.toNat := by
  have hb := b.toNat_lt
  have hv : Nat.isValidChar b.toNat := Or.inl (by omega)
  simp [Char.ofNat, hv, Char.toNat, Char.ofNatAux]

theorem isAscii_of_alphanum {c : Char} (h : c.isAlphanum = true) : c.toNat ≤ 0x7f := by
  simp only [Char.isAlphanum, Char.isAlpha, Char.isUpper, Char.isLower, Char.isDigit, Bool.or_eq_true,
    Bool.and_eq_true, decide_eq_true_eq] at h
  have hc : ∀ n : UInt32, c.val ≤ n → c.toNat ≤ n.toNat := fun n hn => UInt32.le_iff_toNat_le.1 hn
  rcases h with (h | h) | h
  · exact (hc _ h.2).trans (by decide)
  · exact (hc _ h.2).trans (by decide)
  · exact (hc _ h.2).trans (by decide)

theorem isAscii_of_head {c : Char} (h : isClaimHead c = true) : c.toNat ≤ 0x7f := by
  simp only [isClaimHead, Bool.or_eq_true, decide_eq_true_eq] at h
  rcases h with h | rfl
  · exact isAscii_of_alphanum h
  · decide

theorem isAscii_of_tail {c : Char} (h : isClaimTail c = true) : c.toNat ≤ 0x7f := by
  simp only [isClaimTail, Bool.or_eq_true, decide_eq_true_eq] at h
  rcases h with (((h | rfl) | rfl) | rfl) | rfl
  · exact isAscii_of_alphanum h
  · decide
  · decide
  · decide
  · decide

theorem Claim.isAscii (p : Claim) : ∀ c ∈ p.1.toList, c.toNat ≤ 0x7f := by
  obtain ⟨s, hs⟩ := p
  intro c hc
  simp only [isClaim] at hs
  cases hl : s.toList with
  | nil => simp [hl] at hc
  | cons d ds =>
    rw [hl] at hs hc
    simp only [Bool.and_eq_true, List.all_eq_true] at hs
    rcases List.mem_cons.1 hc with rfl | hc
    · exact isAscii_of_head hs.1.1
    · exact isAscii_of_tail (hs.2 c hc)

theorem utf8EncodeChar_ascii (b : UInt8) (h : (Char.ofNat b.toNat).toNat ≤ 0x7f) :
    String.utf8EncodeChar (Char.ofNat b.toNat) = [b] := by
  have hn := char_toNat b
  have hval : (Char.ofNat b.toNat).val.toNat = b.toNat := hn
  unfold String.utf8EncodeChar
  simp only [hval]
  rw [if_pos (by rw [hn] at h; exact h)]
  simp

/-- Bytes that read as a claim are the bytes of the claim. -/
theorem bytes_of_claim {b : Bytes} {p : Claim} (h : text b = p.1) : b = claimBytes p.1 := by
  have hascii := p.isAscii
  rw [← h] at hascii
  rw [← h, claimBytes]
  simp only [text, String.toList_ofList] at hascii ⊢
  clear h
  induction b with
  | nil => rfl
  | cons c cs ih =>
    simp only [List.map_cons, List.flatMap_cons]
    rw [utf8EncodeChar_ascii c (hascii _ List.mem_cons_self),
      ← ih fun d hd => hascii d (List.mem_cons_of_mem _ hd)]
    rfl

/-- The far end reads the protocol that a frame was built with. -/
theorem protoOf_buildReq (corr : Nat) (noReply : Bool) (proto payload : Bytes)
    (h : proto.length ≤ 0xff) :
    ReqRes.protoOf (ReqRes.buildReq corr noReply proto payload) = some proto := by
  have hlen : (ReqRes.buildReq corr noReply proto payload).length =
      6 + proto.length + payload.length := by
    simp [ReqRes.buildReq]
    omega
  have hbyte : byteAt (ReqRes.buildReq corr noReply proto payload) 5 = proto.length := by
    simp [ReqRes.buildReq, byteAt, writeU32BE, UInt8.toNat_ofNat']
    omega
  have hdrop : (ReqRes.buildReq corr noReply proto payload).drop 6 = proto ++ payload := by
    simp [ReqRes.buildReq, writeU32BE]
  have hhead : ReqRes.REQ_HEAD_LEN = 6 := rfl
  have hat : ReqRes.REQ_PROTO_LEN_AT = 5 := rfl
  unfold ReqRes.protoOf
  rw [hhead, hat, hbyte, hlen, if_neg (by omega)]
  simp only
  rw [if_neg (by omega), subarray, hdrop]
  simp

theorem blobEnd_ok {args : Bytes} {start stop : Nat} (h : blobEnd args start = .ok stop) :
    stop = start + 4 + readU32BE args start := by
  unfold blobEnd at h
  split at h
  · cases h
  · exact (Except.ok.inj h).symm

theorem Reader.peer_ok {op : String} {rd rd' : Reader} {b : Bytes} (h : rd.peer op = .ok (b, rd')) :
    b = rd.blob.1 ∧ rd' = rd.blob.2 := by
  simp only [Reader.peer] at h
  split at h
  · cases h
  · obtain ⟨rfl, rfl⟩ := Prod.mk.inj (Except.ok.inj h)
    exact ⟨rfl, rfl⟩

theorem sendTo_proto {noReply : Bool} {peer peer' frame : Bytes} {rd : Reader} {r : ReqRes}
    (h : r.sendTo noReply peer' rd = .ok (.sent peer frame)) :
    ReqRes.protoOf frame = some rd.blob.1 := by
  simp only [ReqRes.sendTo] at h
  split at h
  · cases h
  · rename_i hlen
    split at h
    · cases h
    · obtain ⟨-, rfl⟩ := Entered.sent.inj (Except.ok.inj h)
      exact protoOf_buildReq _ _ _ _ (by omega)

theorem bind_ok {ε α β : Type} {x : Except ε α} {f : α → Except ε β} {b : β}
    (h : x.bind f = .ok b) : ∃ a, x = .ok a ∧ f a = .ok b := by
  cases x with
  | error e => cases h
  | ok a => exact ⟨a, rfl, h⟩

/-- The frame that `send` makes carries the protocol that the host's reader found. -/
theorem send_proto {args : Bytes} {start stop : Nat} {r : ReqRes} {peer frame : Bytes}
    (hstart : blobEnd args 1 = .ok start) (hstop : blobEnd args start = .ok stop)
    (h : r.send args = .ok (.sent peer frame)) :
    ReqRes.protoOf frame = some (subarray args (start + 4) stop) := by
  have hs := blobEnd_ok hstart
  have he := blobEnd_ok hstop
  -- the peer id is the blob behind the first byte, and the protocol begins where it ends
  have hpeer : ((Reader.mk args 0).u8.2).blob.2 = ⟨args, start⟩ := by
    simp only [Reader.u8, Reader.blob, Reader.u32, hs]
  have hproto : (Reader.mk args start).blob.1 = subarray args (start + 4) stop := by
    simp only [Reader.blob, Reader.u32, he]
  obtain ⟨⟨peer', rd⟩, hrd, hsend⟩ := bind_ok h
  obtain ⟨-, hrd'⟩ := Reader.peer_ok hrd
  have := sendTo_proto hsend
  rw [hrd', hpeer, hproto] at this
  exact this

/-- The transport makes a request frame of a `send` only. -/
theorem handle_sent {r : ReqRes} {caller : AppId} {body peer frame : Bytes}
    (h : r.handle (caller.1 ++ body) = .ok (.sent peer frame)) :
    ∃ args, readOp body = .ok ("send", args) ∧ r.send args = .ok (.sent peer frame) := by
  have hbody : (callerOf (caller.1 ++ body)).body = body := by
    simp [callerOf, caller.2]
  simp only [ReqRes.handle, hbody] at h
  cases hop : readOp body with
  | error e => simp [hop] at h
  | ok v =>
    obtain ⟨op, args⟩ := v
    simp only [hop] at h
    split at h
    · cases h
    · split at h
      · cases h
      · split at h
        · rename_i hsend
          subst hsend
          exact ⟨args, rfl, h⟩
        · cases h

/-- What the host's reader makes of a `send`. -/
theorem sendProtocol_send {body args : Bytes} (hop : readOp body = .ok ("send", args)) :
    (∃ e, sendProtocol body = .error e) ∨
      ∃ start stop, blobEnd args 1 = .ok start ∧ blobEnd args start = .ok stop ∧
        sendProtocol body = .ok (some (text (subarray args (start + 4) stop))) := by
  simp only [sendProtocol, hop]
  cases h1 : blobEnd args 1 with
  | error e => exact Or.inl ⟨e, rfl⟩
  | ok start =>
    cases h2 : blobEnd args start with
    | error e => exact Or.inl ⟨e, by simp [h2]⟩
    | ok stop => exact Or.inr ⟨start, stop, rfl, h2, by simp [h2]⟩

/-- An app's call that makes a request frame was read by the host as sending under one of its
protocols. -/
theorem appCall_sent {app : String} {protocols : List Claim} {caller : AppId} {body peer frame : Bytes}
    {r : ReqRes} (h : appCall app protocols caller body r = .ok (.sent peer frame)) :
    ∃ p ∈ protocols, sendProtocol body = .ok (some p.1) ∧
      r.handle (caller.1 ++ body) = .ok (.sent peer frame) := by
  simp only [appCall, sendsOwn, if_true] at h
  cases hp : sendProtocol body with
  | error e => simp [hp] at h
  | ok o =>
    cases o with
    | none =>
      simp only [hp] at h
      obtain ⟨args, hop, -⟩ := handle_sent h
      simp only [sendProtocol, hop] at hp
      split at hp
      · rename_i hne
        exact absurd rfl hne
      · split at hp
        · cases hp
        · split at hp
          · cases hp
          · cases hp
    | some protocol =>
      simp only [hp] at h
      split at h
      · rename_i hmem
        obtain ⟨p, hp', rfl⟩ := List.mem_map.1 hmem
        exact ⟨p, hp', rfl, h⟩
      · cases h

theorem text_injective {a b : Bytes} (h : text a = text b) : a = b := by
  have hl : (a.map fun c => Char.ofNat c.toNat) = b.map fun c => Char.ofNat c.toNat := by
    have := congrArg String.toList h
    simpa [text] using this
  refine List.map_injective_iff.2 (fun c d hcd => ?_) hl
  have hn := congrArg Char.toNat hcd
  simp only [char_toNat] at hn
  exact UInt8.toNat_inj.1 hn

/-- What the host's reader says of a body, against what the transport does with it. -/
def Agrees (body : Bytes) : Except String (Option String) → Prop
  | .error _ => True
  | .ok none => ∃ op args, readOp body = .ok (op, args) ∧ op ≠ "send"
  | .ok (some protocol) => ∃ args, readOp body = .ok ("send", args) ∧
    ∀ (r : ReqRes) (peer frame : Bytes), r.send args = .ok (.sent peer frame) →
      ∃ proto, ReqRes.protoOf frame = some proto ∧ text proto = protocol

theorem sendProtocol_agrees (body : Bytes) : Agrees body (sendProtocol body) := by
  cases hop : readOp body with
  | error e => simp [sendProtocol, hop, Agrees]
  | ok v =>
    obtain ⟨op, args⟩ := v
    by_cases hsend : op = "send"
    · subst hsend
      rcases sendProtocol_send hop with ⟨e, he⟩ | ⟨start, stop, h1, h2, he⟩
      · simp [he, Agrees]
      · rw [he]
        exact ⟨args, hop, fun r peer frame h => ⟨_, send_proto h1 h2 h, rfl⟩⟩
    · have he : sendProtocol body = .ok none := by simp [sendProtocol, hop, hsend]
      rw [he]
      exact ⟨op, args, hop, hsend⟩

/-- An app sends only under protocols it claims: a request frame that comes of its call
carries, byte for byte, one of them, and the host's reader and the transport's never disagree
on a body that is let through. -/
theorem appCall_sends_own (app : String) (protocols : List Claim) (caller : AppId) (body : Bytes)
    (r : ReqRes) :
    (∀ peer frame, appCall app protocols caller body r = .ok (.sent peer frame) →
      ∃ p ∈ protocols, ReqRes.protoOf frame = some (claimBytes p.1)) ∧
    Agrees body (sendProtocol body) ∧
    (sendProtocol body = .ok none ↔ ∃ op args, readOp body = .ok (op, args) ∧ op ≠ "send") := by
  refine ⟨fun peer frame h => ?_, sendProtocol_agrees body, fun h => ?_, fun h => ?_⟩
  · obtain ⟨p, hp, hproto, hhandle⟩ := appCall_sent h
    obtain ⟨args, hop, hsend⟩ := handle_sent hhandle
    have hagree := sendProtocol_agrees body
    rw [hproto] at hagree
    obtain ⟨args', hop', hall⟩ := hagree
    obtain rfl : args' = args := by
      rw [hop] at hop'
      exact (Prod.mk.inj (Except.ok.inj hop')).2.symm
    obtain ⟨proto, hframe, htext⟩ := hall r peer frame hsend
    exact ⟨p, hp, by rw [hframe, bytes_of_claim htext]⟩
  · have hagree := sendProtocol_agrees body
    rwa [h] at hagree
  · obtain ⟨op, args, hop, hne⟩ := h
    simp [sendProtocol, hop, hne]

/-- `send` with a reply, to one peer, under the one-letter protocol `p`. -/
def sendBody : Bytes :=
  [4, 115, 101, 110, 100, 0, 0, 0, 0, 32] ++ List.replicate 32 7 ++ [0, 0, 0, 1, 112, 0, 0, 0, 0]

def claimP : Claim := ⟨"p", by decide +kernel⟩

def appNine : AppId := ⟨List.replicate 32 9, by decide⟩

theorem appCall_sends_p :
    appCall "app" [claimP] appNine sendBody (ReqRes.create 1024 0) =
      .ok (.sent (List.replicate 32 7) [0, 0, 0, 0, 1, 1, 112]) ∧
    ∃ p ∈ [claimP], ReqRes.protoOf [0, 0, 0, 0, 1, 1, 112] = some (claimBytes p.1) := by
  have h : appCall "app" [claimP] appNine sendBody (ReqRes.create 1024 0) =
      .ok (.sent (List.replicate 32 7) [0, 0, 0, 0, 1, 1, 112]) := by decide +kernel
  exact ⟨h, (appCall_sends_own "app" [claimP] appNine sendBody (ReqRes.create 1024 0)).1 _ _ h⟩

end SeedTransport
