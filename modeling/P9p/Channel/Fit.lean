/-
# `P9p.Channel.Fit` — messages cut to the message size

`maybeTruncate` looks at three kinds of messages.

    Tread     the count is lowered until the reply will fit     (`maybeTruncate_tread`)
    Twrite    the data is cut until the request fits            (`maybeTruncate_twrite`)
    the rest  is refused if it does not fit                     (`maybeTruncate_rest`)

A `Tread` is 23 bytes long, as is a `Twrite` without data; a `Rread` without
data has 11 bytes.  So with an msize of at least 23 whatever is sent fits, and
is cut no more than that (`writeFcall_fits`).

The count of a `Tread` is computed in 32 bits, with an overflow that is
negative most of the time.  That it comes out right is the content of
`maybeTruncate_tread`; it does for every msize of at least 11, but for one of
`2 ^ 32` or more the limit is that of its last 32 bits.
-/
import P9p.Channel.Link

namespace P9p

open Wire Wire.Reader

variable {f : Fcall} {msize : Nat} {fid : Fid} {m : Message}

/-! ## What is cut -/

/-- `Tread` and `Twrite`. -/
def Message.isCut : Message → Bool
  | tread .. | twrite .. => true
  | _ => false

/-- The message that is sent in place of `m`. -/
def Message.cut (msize : Nat) : Message → Message
  | tread fid offset count => tread fid offset (UInt32.ofNat (min count.toNat (msize - 11)))
  | twrite fid offset data => twrite fid offset (data.take (msize - 23))
  | m => m

theorem Message.cut_cases (m : Message) :
    (∃ fid offset count, m = .tread fid offset count) ∨
    (∃ fid offset data, m = .twrite fid offset data) ∨
    (m.isCut = false ∧ ∀ msize, m.cut msize = m) := by
  cases m with
  | tread fid offset count => exact Or.inl ⟨fid, offset, count, rfl⟩
  | twrite fid offset data => exact Or.inr (Or.inl ⟨fid, offset, data, rfl⟩)
  | _ => exact Or.inr (Or.inr ⟨rfl, fun _ => rfl⟩)

theorem Fcall.with_message {v : MessageVal} (h : f.message = v) : { f with message := v } = f := by
  subst h
  rfl

theorem maybeTruncate_tread {offset : UInt64} {count : UInt32}
    (hm : f.message = .value (.tread fid offset count)) (h : 11 ≤ msize) :
    ∃ count', maybeTruncate msize f =
        .ok { f with message := .value (.tread fid offset count') } ∧
      count'.toNat = min count.toNat ((msize - 11) % 2 ^ 32) := by
  have hresp : msgmsize (newFcall f.tag (.rread [])) = 11 := rfl
  simp only [maybeTruncate, hm, hresp]
  generalize hoverflow : UInt32.ofNat 11 + count - UInt32.ofNat msize = overflow
  have hcount := count.toNat_lt
  have htoNat : overflow.toNat =
      (2 ^ 32 - msize % 2 ^ 32 + (11 + count.toNat) % 2 ^ 32) % 2 ^ 32 := by
    rw [← hoverflow, UInt32.toNat_sub, UInt32.toNat_add, UInt32.toNat_ofNat', UInt32.toNat_ofNat']
  split
  · -- the reply fits, and the overflow has wrapped
    rename_i hlt
    rw [UInt32.lt_iff_toNat_lt] at hlt
    refine ⟨count, ?_, ?_⟩
    · rw [Fcall.with_message hm]
    · omega
  · rename_i hle
    rw [UInt32.lt_iff_toNat_lt] at hle
    refine ⟨count - overflow, rfl, ?_⟩
    rw [UInt32.toNat_sub_of_le _ _ (UInt32.le_iff_toNat_le.mpr (Nat.not_lt.mp hle))]
    omega

/-- A `Tread` is never refused. -/
theorem maybeTruncate_tread_ok (msize : Nat) {offset : UInt64} {count : UInt32}
    (hm : f.message = .value (.tread fid offset count)) :
    ∃ count', maybeTruncate msize f =
      .ok { f with message := .value (.tread fid offset count') } := by
  simp only [maybeTruncate, hm]
  split
  · exact ⟨count, by rw [Fcall.with_message hm]⟩
  · exact ⟨_, rfl⟩

theorem Fcall.encode_length (hm : f.message = .value m) :
    f.encode.length = 3 + (m.encode false).length := by
  simp only [Fcall.encode, hm, MessageVal.encode, List.length_append, List.length_singleton,
    putUint16, toLE_length]

theorem twrite_length (fid : Fid) (offset : UInt64) (data : Bytes) :
    ((Message.twrite fid offset data).encode false).length = 16 + data.length := by
  simp only [Message.encode, Message.fields, List.flatMap_cons, List.flatMap_nil, Elem.encode,
    Plain.encode, List.append_nil, List.length_append, putUint32, putUint64, toLE_length]
  omega

theorem tread_length (fid : Fid) (offset : UInt64) (count : UInt32) :
    ((Message.tread fid offset count).encode false).length = 16 := by
  simp only [Message.encode, Message.fields, List.flatMap_cons, List.flatMap_nil, Elem.encode,
    Plain.encode, List.append_nil, List.length_append, putUint32, putUint64, toLE_length]

theorem maybeTruncate_twrite {offset : UInt64} {data : Bytes}
    (hm : f.message = .value (.twrite fid offset data)) (hmin : 23 ≤ msize)
    (hsize : f.encode.length < 2 ^ 32) :
    maybeTruncate msize f =
      .ok { f with message := .value (.twrite fid offset (data.take (msize - 23))) } := by
  have hlen : f.encode.length = 19 + data.length := by
    rw [Fcall.encode_length hm, twrite_length]
    omega
  have hmsg : msgmsize f = 23 + data.length := by
    rw [msgmsize, channelMessageHeaderSize, Fcall.size_toNat hm]
    omega
  simp only [maybeTruncate, hm, hmsg]
  split
  · rename_i hfit
    have hall : data.take (msize - 23) = data := List.take_of_length_le (by omega)
    rw [hall, Fcall.with_message hm]
  · rename_i hbig
    have hoverflow : ¬ data.length < 23 + data.length - msize := by omega
    have hkeep : data.length - (23 + data.length - msize) = msize - 23 := by omega
    rw [if_neg hoverflow, hkeep]

theorem maybeTruncate_rest (hm : f.message = .value m) (hcut : m.isCut = false) :
    maybeTruncate msize f =
      if msgmsize f > msize then .error (.overflow (msgmsize f - msize)) else .ok f := by
  cases m with
  | tread fid offset count => cases hcut
  | twrite fid offset data => cases hcut
  | _ =>
      unfold maybeTruncate
      simp only [hm]

/-! ## What is sent -/

/-- The frame of a message that fits states its own length. -/
theorem sendmsg_header {p : Bytes} (hmax : msize < 2 ^ 32) (hfit : p.length + 4 ≤ msize) :
    ∃ size : UInt32, sendmsg p = putUint32 size ++ p ∧ size.toNat = (sendmsg p).length := by
  refine ⟨_, rfl, ?_⟩
  rw [UInt32.toNat_ofNat', sendmsg, List.length_append, putUint32, toLE_length]
  omega

/-- What is sent in place of `m` is as long as `m`, or as the msize. -/
theorem cut_length (hm : f.message = .value m) (hmin : 23 ≤ msize)
    (hfit : m.isCut ∨ f.encode.length + 4 ≤ msize) :
    (Fcall.encode { f with message := .value (m.cut msize) }).length + 4 =
      min (4 + f.encode.length) msize := by
  rw [Fcall.encode_length hm] at hfit ⊢
  rw [Fcall.encode_length rfl]
  obtain ⟨fid, offset, count, rfl⟩ | ⟨fid, offset, data, rfl⟩ | ⟨hcut, hsame⟩ := m.cut_cases
  · rw [Message.cut, tread_length, tread_length]
    omega
  · rw [Message.cut, twrite_length, twrite_length, List.length_take]
    omega
  · have hfit := hfit.resolve_left (Bool.eq_false_iff.mp hcut)
    rw [hsame]
    omega

/-- What `WriteFcall` does with `f`, for an msize between 23 and `2 ^ 32`. -/
theorem maybeTruncate_cut (hm : f.message = .value m) (hmin : 23 ≤ msize) (hmax : msize < 2 ^ 32)
    (hsize : f.encode.length < 2 ^ 32) :
    maybeTruncate msize f =
      if m.isCut ∨ msgmsize f ≤ msize then .ok { f with message := .value (m.cut msize) }
      else .error (.overflow (msgmsize f - msize)) := by
  obtain ⟨fid, offset, count, rfl⟩ | ⟨fid, offset, data, rfl⟩ | ⟨hcut, hsame⟩ := m.cut_cases
  · have hmin : 11 ≤ msize := by omega
    have hmod : (msize - 11) % 2 ^ 32 = msize - 11 := Nat.mod_eq_of_lt (by omega)
    obtain ⟨count', hok, hcount⟩ := maybeTruncate_tread hm hmin
    refine Eq.trans ?_ (if_pos (Or.inl rfl)).symm
    rw [hok, Message.cut, ← hmod, ← hcount, UInt32.ofNat_toNat]
  · refine Eq.trans ?_ (if_pos (Or.inl rfl)).symm
    exact maybeTruncate_twrite hm hmin hsize
  · rw [maybeTruncate_rest hm hcut, hsame, hcut, Fcall.with_message hm]
    by_cases hfit : msgmsize f ≤ msize
    · rw [if_neg (Nat.not_lt.mpr hfit), if_pos (Or.inr hfit)]
    · rw [if_pos (Nat.not_le.mp hfit), if_neg (not_or.mpr ⟨nofun, hfit⟩)]

/-- `WriteFcall` refuses exactly what neither fits nor can be cut, and says by
how much it is too long.  Otherwise it writes one frame, which states its
length, with as much of the message as the msize allows. -/
theorem writeFcall_fits (ch : Channel) (f : Fcall) (m : Message) (hm : f.message = .value m)
    (hmin : 23 ≤ ch.msize) (hmax : ch.msize < 2 ^ 32) (hsize : f.encode.length < 2 ^ 32) :
    ((∃ e, ch.writeFcall none f = .error e ∧ overflow e = 4 + f.size.toNat - ch.msize ∧
        0 < overflow e) ∧ m.isCut = false ∧ ch.msize < 4 + f.size.toNat) ∨
    ((∃ (frame : Bytes) (size : UInt32), ch.writeFcall none f = .ok frame ∧
        frame = putUint32 size ++ Fcall.encode { f with message := .value (m.cut ch.msize) } ∧
        size.toNat = frame.length ∧ frame.length ≤ ch.msize ∧
        frame.length = min (4 + f.size.toNat) ch.msize) ∧
      (m.isCut ∨ 4 + f.size.toNat ≤ ch.msize)) := by
  have hcut := maybeTruncate_cut hm hmin hmax hsize
  have hlen : f.size.toNat = f.encode.length := by
    rw [Fcall.size_toNat hm, Nat.mod_eq_of_lt hsize]
  have hmsg : msgmsize f = 4 + f.size.toNat := rfl
  rw [writeFcall_eq, onWire, hcut]
  by_cases hfit : m.isCut ∨ msgmsize f ≤ ch.msize
  · right
    rw [if_pos hfit]
    have hframe := cut_length hm hmin (hfit.imp_right fun h => by omega)
    obtain ⟨size, heq, hhead⟩ := sendmsg_header hmax
      (hframe.trans_le (Nat.min_le_right ..))
    have hall : (sendmsg (Fcall.encode { f with message := .value (m.cut ch.msize) })).length =
        min (4 + f.size.toNat) ch.msize := by
      rw [hlen, ← hframe, sendmsg, List.length_append, putUint32, toLE_length, Nat.add_comm]
    exact ⟨⟨_, size, rfl, heq, hhead, hall ▸ Nat.min_le_right .., hall⟩, hfit⟩
  · left
    rw [if_neg hfit]
    obtain ⟨hno, hbig⟩ := not_or.mp hfit
    have hbig : ch.msize < 4 + f.size.toNat := Nat.not_le.mp hbig
    refine ⟨⟨_, rfl, ?_, ?_⟩, Bool.eq_false_iff.mpr hno, hbig⟩
    · rw [overflow, hmsg]
      omega
    · rw [overflow, hmsg]
      omega

/-- Ten bytes of data and an msize of 30: seven of them are sent. -/
theorem writeFcall_fits_twrite :
    ∃ frame size, (newChannel 30).writeFcall none (newFcall 1 (.twrite 2 0 (List.replicate 10 7))) =
        .ok frame ∧
      frame = putUint32 size ++ (newFcall 1 (.twrite 2 0 (List.replicate 7 7))).encode ∧
      frame.length = 30 := by
  rcases writeFcall_fits (newChannel 30) (newFcall 1 (.twrite 2 0 (List.replicate 10 7))) _ rfl
    (by decide) (by decide) (by decide) with ⟨-, hcut, -⟩ |
    ⟨⟨frame, size, hok, hframe, -, -, hlen⟩, -⟩
  · cases hcut
  · exact ⟨frame, size, hok, hframe, hlen⟩

/-! ## What arrives -/

/-- An Fcall that the wire format can hold and whose frame fits arrives as it
is, up to the truncation. -/
theorem readFcall_sendmsg (ch : Channel) {g : Fcall} (hm : f.message = .value m)
    (htype : f.type = m.type) (hok : m.Encodable) (hfit : f.encode.length + 4 ≤ ch.msize)
    (hlt : f.encode.length + 4 < 2 ^ 32) (hg : maybeTruncate ch.msize f = .ok g) (rest : Bytes) :
    ch.readFcall none (sendmsg f.encode ++ rest) = .ok ((g, ch.fill f.encode), rest) := by
  obtain ⟨p, hp, hdec⟩ := unmarshal_marshal f m hm htype hok
  cases hp
  rw [Channel.readFcall, bind_apply, sendmsg, receive_frame ch (sendmsg_toNat hlt) hfit rest,
    Channel.decoded, (hdec _).2]
  simp only [Channel.fill, hg]
  rfl

/-- One that is neither a `Tread` nor a `Twrite` is not touched by the
truncation. -/
theorem maybeTruncate_same (hm : f.message = .value m) (hcut : m.isCut = false)
    (hfit : f.encode.length + 4 ≤ msize) : maybeTruncate msize f = .ok f := by
  have hmod := Nat.mod_le f.encode.length (2 ^ 32)
  rw [maybeTruncate_rest hm hcut, msgmsize, channelMessageHeaderSize, Fcall.size_toNat hm,
    if_neg (by omega)]

end P9p
