import SeedTransport.Framing.Reassembly
import SeedTransport.Ws.Accept

set_option autoImplicit false

namespace SeedTransport.Framing

/-! What a framer keeps from one read to the next. -/

open Ws (SCRATCH_SIZE masked)
open Utf (js)

variable {S : Setting}

/-- The message in progress is within the cap. -/
def Bounded (S : Setting) (past : List Frame) : Prop := (joined (pending past)).length ≤ capAt S past

theorem Leads.payload_length {past : List Frame} {p : Bytes} {f : Frame} {n : Nat} (h : Leads S past p f n) :
    f.payload.length ≤ capAt S past := by
  obtain ⟨head, len, hh, -, -, hp⟩ := h
  obtain ⟨-, -, -, -, -, -, hcap⟩ := rfcHead_header hh
  rw [hp]
  split
  · rw [List.length_take]
    omega
  · rw [Ws.masked_length, List.length_take]
    omega

/-- A message that moves the cap leaves none in progress. -/
theorem capAt_pending {past : List Frame} {f : Frame} (h : pending (past ++ [f]) ≠ []) :
    capAt S (past ++ [f]) = capAt S past := by
  rw [capAt_snoc, if_neg]
  intro hone
  unfold replies at hone
  split_ifs at hone with h₁ h₂
  · cases hone
  · rw [pending_snoc, if_pos h₂.1, if_pos h₂.2.1] at h
    exact h rfl
  · cases hone

theorem Bounded.snoc {past : List Frame} {p : Bytes} {f : Frame} {n : Nat} (h : Bounded S past)
    (hl : Leads S past p f n) (hc : Continues S past f) : Bounded S (past ++ [f]) := by
  unfold Bounded
  by_cases hp : pending (past ++ [f]) = []
  · rw [hp]
    exact Nat.zero_le _
  rw [capAt_pending hp]
  rw [pending_snoc] at hp ⊢
  by_cases hd : f.data = true
  · rw [if_pos hd] at hp ⊢
    by_cases hf : f.fin = true
    · rw [if_pos hf] at hp
      exact absurd rfl hp
    rw [if_neg hf]
    by_cases hcont : f.opcode = WS_OP_CONT
    · exact (hc.continuation hcont).2
    · rw [hc.start hd hcont, joined_snoc]
      exact hl.payload_length
  · rw [if_neg hd]
    exact h

theorem Reads.bounded {past fs : List Frame} {p rest : Bytes} {ok : Bool} (h : Reads S past p fs rest ok)
    (hb : Bounded S past) : Bounded S (past ++ fs) := by
  induction h with
  | waits | forbidden | ends => rwa [List.append_nil]
  | @frame past p f n fs rest ok hl hu hc _ ih =>
    have hrest := ih (hb.snoc hl hc)
    rwa [List.append_assoc] at hrest

/-- A request to a server. -/
def request : Bytes := Utf.utf8Encode (js "GET / HTTP/1.1\r\nSec-WebSocket-Key: x\r\n\r\n")

end SeedTransport.Framing
