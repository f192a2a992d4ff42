/-
# `P9p.Channel.Link` — from `WriteFcall` at one end to `ReadFcall` at the other

A message that crosses a connection is changed at both ends: `WriteFcall`
truncates it to the writer's msize, `ReadFcall` decodes what was encoded and
truncates it to the reader's.  `onWire` and `offWire` are the two halves, for
a link that delivers what is written in order and loses nothing; the message
on the wire is written as the Fcall that was encoded.

    WriteFcall f   =  the frame of onWire msize f          (`writeFcall_eq`)
    ReadFcall      =  offWire msize of the frame's Fcall   (`readFcall_frame`)

The second holds whatever the buffer held before, for a frame that fits and
whose body decodes; `P9p.Channel.Frames` has the other case.

Nothing on the way touches the tag or the type byte (`Carried.tag`,
`Carried.not_tflush`).
-/
import P9p.Channel.Frames
import P9p.Encoding.Canonical

namespace P9p

open Wire Wire.Reader

variable {g f : Fcall} {msize : Nat}

/-- What `WriteFcall` on a channel with this msize encodes for `f`. -/
def onWire (msize : Nat) (f : Fcall) : Except Err Fcall := maybeTruncate msize f

/-- What `ReadFcall` on a channel with this msize makes of the encoding of `f`. -/
def offWire (msize : Nat) (f : Fcall) : Except Err Fcall :=
  match unmarshal f.encode with
  | .error e => .error e
  | .ok g => maybeTruncate msize g

/-- `f` passed to `WriteFcall` arrives from `ReadFcall` as `g`. -/
def Carried (wmsize rmsize : Nat) (f g : Fcall) : Prop :=
  ∃ w, onWire wmsize f = .ok w ∧ offWire rmsize w = .ok g

theorem writeFcall_eq (ch : Channel) (f : Fcall) :
    ch.writeFcall none f = (onWire ch.msize f).map fun w => sendmsg w.encode := by
  unfold Channel.writeFcall onWire
  cases maybeTruncate ch.msize f with
  | error e => rfl
  | ok w => rfl

theorem readFcall_frame (ch : Channel) {w : Fcall} (hdec : unmarshal w.encode = .ok g)
    (hfit : w.encode.length + 4 ≤ ch.msize) (hlt : w.encode.length + 4 < 2 ^ 32) (rest : Bytes) :
    delivered (ch.readFcall none (sendmsg w.encode ++ rest)) = (offWire ch.msize w).toOption := by
  have hrecv : delivered (ch.receive none (sendmsg w.encode ++ rest)) = some g :=
    (delivered_receive ch (sendmsg_toNat hlt) hfit rest g).mpr (unmarshal_append hdec _)
  rw [delivered_readFcall, hrecv, offWire, hdec]
  rfl

/-! ## What stays -/

/-- A message that is sent at all is sent as it is, or is a `Tread` or a
`Twrite` with another count or less data. -/
theorem maybeTruncate_cases (h : maybeTruncate msize f = .ok g) :
    g = f ∨
      (∃ fid offset count count', f.message = .value (.tread fid offset count) ∧
        g = { f with message := .value (.tread fid offset count') }) ∨
      ∃ fid offset data data', f.message = .value (.twrite fid offset data) ∧
        g = { f with message := .value (.twrite fid offset data') } := by
  unfold maybeTruncate at h
  dsimp only at h
  split at h
  · rename_i hm
    split at h
    · cases h
      exact Or.inl rfl
    · cases h
      exact Or.inr (Or.inl ⟨_, _, _, _, hm, rfl⟩)
  · rename_i hm
    split at h
    · cases h
      exact Or.inl rfl
    · split at h
      · cases h
      · cases h
        exact Or.inr (Or.inr ⟨_, _, _, _, hm, rfl⟩)
  · split at h
    · cases h
    · cases h
      exact Or.inl rfl

theorem maybeTruncate_type (h : maybeTruncate msize f = .ok g) : g.type = f.type := by
  rcases maybeTruncate_cases h with rfl | ⟨_, _, _, _, -, rfl⟩ | ⟨_, _, _, _, -, rfl⟩ <;> rfl

theorem maybeTruncate_tag (h : maybeTruncate msize f = .ok g) : g.tag = f.tag := by
  rcases maybeTruncate_cases h with rfl | ⟨_, _, _, _, -, rfl⟩ | ⟨_, _, _, _, -, rfl⟩ <;> rfl

/-- The decoder reads back the type byte and the tag, and builds a message of
that type, whatever it finds behind them. -/
theorem unmarshal_encode (h : unmarshal f.encode = .ok g) :
    g.type = f.type ∧ g.tag = f.tag ∧ ∃ m, g.message = .value m ∧ m.type = f.type := by
  obtain ⟨rest, hdec⟩ := unmarshal_eq_ok h
  rw [decodeFcall, Fcall.encode, List.append_assoc, bind_apply, encodes_getUint8 f.type] at hdec
  simp only [bind_apply, encodes_getUint16 f.tag f.message.encode] at hdec
  cases hz : newMessage f.type with
  | error e =>
      rw [hz] at hdec
      cases hdec
  | ok z =>
      rw [hz] at hdec
      obtain ⟨m, mid, hm, hg⟩ := bind_eq_ok hdec
      cases hg
      exact ⟨rfl, rfl, m, rfl, (message_accepts hz hm).1⟩

theorem offWire_tag (h : offWire msize f = .ok g) : g.tag = f.tag := by
  unfold offWire at h
  cases hu : unmarshal f.encode with
  | error e =>
      rw [hu] at h
      cases h
  | ok u =>
      rw [hu] at h
      exact (maybeTruncate_tag h).trans (unmarshal_encode hu).2.1

theorem Carried.tag {wmsize rmsize : Nat} (h : Carried wmsize rmsize f g) : g.tag = f.tag := by
  obtain ⟨w, hon, hoff⟩ := h
  exact (offWire_tag hoff).trans (maybeTruncate_tag hon)

/-- Only a `Tflush` arrives as a `Tflush`. -/
theorem Carried.not_tflush {wmsize rmsize : Nat} (h : Carried wmsize rmsize f g)
    (hf : ∀ oldtag, f.type ≠ (Message.tflush oldtag).type) (oldtag : Tag) :
    g.message ≠ .value (.tflush oldtag) := by
  intro hg
  obtain ⟨w, hon, hoff⟩ := h
  unfold offWire at hoff
  cases hu : unmarshal w.encode with
  | error e =>
      rw [hu] at hoff
      cases hoff
  | ok u =>
      rw [hu] at hoff
      obtain ⟨-, -, m, hm, htype⟩ := unmarshal_encode hu
      rcases maybeTruncate_cases hoff with rfl | ⟨_, _, _, _, -, rfl⟩ | ⟨_, _, _, _, -, rfl⟩
      · rw [hm] at hg
        cases hg
        exact hf oldtag (htype.trans (maybeTruncate_type hon)).symm
      · cases hg
      · cases hg

end P9p
