/-
# `P9p.Channel.Stream` — frame after frame

`readmsg` called again and again on what `sendmsg` has written.  Each call
takes exactly one frame off the connection, however the lengths of the body and
of the buffer compare (`readmsg_frame`), so every call finds the connection at
the start of a frame (`readmsgs_in_sync`).  This includes the frames that
`ReadFcall` reports as too long.
-/
import P9p.Channel.Frames

namespace P9p

open Wire Wire.Reader

/-- The two arguments of `readmsg`: what is still to come on the connection,
and the buffer. -/
structure Receiver where
  stream : Bytes
  buf : Bytes

/-- One call of `readmsg`. -/
def Receiver.readmsg (r : Receiver) : Except Fault (Nat × Receiver) :=
  match P9p.readmsg r.buf.length r.stream with
  | .error e => .error e
  | .ok ((n, q), rest) => .ok (n, ⟨rest, overwrite r.buf q⟩)

/-- The receiver after a number of calls. -/
def Receiver.readmsgs : Nat → Receiver → Except Fault Receiver
  | 0, r => .ok r
  | i + 1, r =>
      match r.readmsg with
      | .error e => .error e
      | .ok (_, r') => r'.readmsgs i

/-- What `sendmsg` writes for one payload after another. -/
def sendmsgs (payloads : List Bytes) : Bytes := payloads.flatMap sendmsg

/-! ## One call -/

/-- The receiver after the frame of `p`. -/
def Receiver.after (r : Receiver) (p rest : Bytes) : Receiver :=
  ⟨rest, overwrite r.buf (p.take r.buf.length)⟩

theorem Receiver.readmsg_sendmsg {p : Bytes} (h : p.length < 2 ^ 32 - 4) {r : Receiver}
    {rest : Bytes} (hr : r.stream = sendmsg p ++ rest) :
    r.readmsg = .ok (p.length + 4, r.after p rest) := by
  have hlt : p.length + 4 < 2 ^ 32 := by omega
  have hframe := readmsg_frame r.buf.length (sendmsg_toNat hlt) rest
  rw [Nat.add_comm 4] at hframe
  rw [Receiver.readmsg, hr, sendmsg, hframe]
  rfl

/-- The buffer keeps its length and begins with as much of `p` as it can
take. -/
theorem overwrite_take_min (buf p : Bytes) :
    (overwrite buf (p.take buf.length)).take (min p.length buf.length) = p.take buf.length := by
  have hlen : (p.take buf.length).length = min p.length buf.length := by
    rw [List.length_take, Nat.min_comm]
  rw [overwrite, List.take_take, Nat.min_self, ← hlen, List.take_left']
  rfl

/-! ## All calls -/

/-- After `i` calls, the frames from the `i`-th on are still to come. -/
theorem Receiver.readmsgs_sendmsgs {payloads : List Bytes}
    (hlen : ∀ p ∈ payloads, p.length < 2 ^ 32 - 4) {r : Receiver} {rest : Bytes}
    (hr : r.stream = sendmsgs payloads ++ rest) {i : Nat} (hi : i ≤ payloads.length) :
    ∃ r', r.readmsgs i = .ok r' ∧ r'.stream = sendmsgs (payloads.drop i) ++ rest ∧
      r'.buf.length = r.buf.length := by
  induction i generalizing payloads r with
  | zero => exact ⟨r, rfl, hr, rfl⟩
  | succ i ih =>
      cases payloads with
      | nil => cases hi
      | cons p payloads =>
          rw [sendmsgs, List.flatMap_cons, List.append_assoc] at hr
          have hcall := readmsg_sendmsg (hlen p List.mem_cons_self) hr
          obtain ⟨r', hcalls, hstream, hbuf⟩ := ih (r := r.after p _)
            (fun p' hp' => hlen p' (List.mem_cons_of_mem p hp')) rfl (Nat.le_of_succ_le_succ hi)
          refine ⟨r', ?_, hstream, hbuf.trans (overwrite_length ..)⟩
          rw [readmsgs, hcall]
          exact hcalls

/-- The call after the `i`-th reads the payload after the `i`-th: it returns its
length with the header, leaves what fits of it at the start of the buffer, and
leaves the connection at the next frame.  For a payload that does not fit,
`ReadFcall` reports by how much. -/
theorem readmsgs_in_sync (payloads : List Bytes) (hlen : ∀ p ∈ payloads, p.length < 2 ^ 32 - 4)
    (buf rest : Bytes) (i : Nat) (hi : i < payloads.length) :
    ∃ r r', Receiver.readmsgs i ⟨sendmsgs payloads ++ rest, buf⟩ = .ok r ∧
      r.stream = sendmsgs (payloads.drop i) ++ rest ∧
      r.readmsg = .ok (payloads[i].length + 4, r') ∧
      r'.stream = sendmsgs (payloads.drop (i + 1)) ++ rest ∧
      r'.buf.length = buf.length ∧
      r'.buf.take (min payloads[i].length buf.length) = payloads[i].take buf.length ∧
      (buf.length < payloads[i].length + 4 → ∀ ch : Channel, ch.rdbuf = r.buf →
        ∃ e, ch.readFcall none r.stream = .error (.err e) ∧
          overflow e = payloads[i].length + 4 - buf.length) := by
  obtain ⟨r, hcalls, hstream, hbuf⟩ := Receiver.readmsgs_sendmsgs hlen
    (r := ⟨sendmsgs payloads ++ rest, buf⟩) rfl (Nat.le_of_lt hi)
  have hbuf : r.buf.length = buf.length := hbuf
  have hp : payloads[i].length < 2 ^ 32 - 4 := hlen _ (List.getElem_mem hi)
  have hnext : r.stream =
      sendmsg payloads[i] ++ (sendmsgs (payloads.drop (i + 1)) ++ rest) := by
    rw [hstream, List.drop_eq_getElem_cons hi, sendmsgs, List.flatMap_cons, List.append_assoc]
    rfl
  refine ⟨r, r.after payloads[i] _, hcalls, hstream, Receiver.readmsg_sendmsg hp hnext, rfl,
    (overwrite_length ..).trans hbuf, ?_, ?_⟩
  · rw [← hbuf]
    exact overwrite_take_min r.buf payloads[i]
  · intro hbig ch hch
    have hmsize : ch.msize = buf.length := by rw [← ch.rdbuf_length, hch, hbuf]
    refine ⟨.overflow (payloads[i].length + 4 - ch.msize), ?_, by rw [overflow, hmsize]⟩
    have hlt : payloads[i].length + 4 < 2 ^ 32 := by omega
    rw [Channel.readFcall, bind_apply, hnext, sendmsg,
      receive_oversized ch (sendmsg_toNat hlt) (by omega)]

/-- A buffer of four bytes, and a payload of six before the one that is read. -/
theorem readmsgs_in_sync_three :
    ∃ r r', Receiver.readmsgs 2
      ⟨sendmsgs [[1, 2, 3], [4, 5, 6, 7, 8, 9], [7]] ++ [], [0, 0, 0, 0]⟩ =
        .ok r ∧ r.readmsg = .ok (5, r') ∧ r'.buf.take 1 = [7] := by
  obtain ⟨r, r', hcalls, -, hcall, -, -, hbuf, -⟩ :=
    readmsgs_in_sync [[1, 2, 3], [4, 5, 6, 7, 8, 9], [7]] (by decide) [0, 0, 0, 0] [] 2 (by decide)
  exact ⟨r, r', hcalls, hcall, hbuf⟩

end P9p
