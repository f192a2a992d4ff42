/-
# `P9p.Channel.Frames` — what a frame's decoding depends on

`readmsg` returns a count that includes the 4 header bytes, but stores only
the body.  `ReadFcall` hands the decoder that many bytes of the buffer, so
behind every body stand four bytes of whatever the buffer held before
(`receive_frame`):

    unmarshal (body ++ (rdbuf.drop body.length).take 4)

A body the decoder accepts is unaffected, since the decoder ignores what it
does not need.  A body that lacks its last bytes is another matter: up to four
of them are supplied by an earlier message.  `isolated_iff` says that these
are exactly the frames whose reading depends on the buffer: those whose body
is a complete message cut short by one to four bytes.

A size below 4 leaves a body of negative length, and `p[:mbody]` panics.
`readFcall_panics_iff` says that this is the only way in which reading a frame
can panic.
-/
import P9p.Channel
import P9p.Encoding.RoundTrip
import P9p.Encoding.Stable

namespace P9p

open Wire Wire.Reader

variable {α : Type} {r : Decoder α} {b rest : Bytes} {f : Fcall}

/-! ## Reading one frame -/

theorem lift_ok {a : α} (h : r b = .ok (a, rest)) : Decoder.lift r b = .ok (a, rest) := by
  rw [Decoder.lift, h]

theorem lift_error {e : Err} (h : r b = .error e) : Decoder.lift r b = .error (.err e) := by
  rw [Decoder.lift, h]

theorem lift_eq_ok {p : α × Bytes} (h : Decoder.lift r b = .ok p) : r b = .ok p := by
  cases hr : r b with
  | ok p' =>
      rw [lift_ok hr] at h
      cases h
      rfl
  | error e =>
      rw [lift_error hr] at h
      cases h

theorem lift_eq_error {e : Err} (h : Decoder.lift r b = .error (.err e)) : r b = .error e := by
  cases hr : r b with
  | ok p =>
      rw [lift_ok hr] at h
      cases h
  | error e' =>
      rw [lift_error hr] at h
      cases h
      rfl

theorem readFull_append {n : Nat} {w : Bytes} (hn : n = w.length) (rest : Bytes) :
    readFull n (w ++ rest) = .ok (w, rest) := by
  subst hn
  exact encodes_readFull w rest

theorem discard_append {n : Nat} {w : Bytes} (hn : n = w.length) (rest : Bytes) :
    discard n (w ++ rest) = .ok (w, rest) := by
  subst hn
  exact Encodes.take Err.eof Err.eof w rest

/-- The header that `sendmsg` writes is right if the size fits in it. -/
theorem sendmsg_toNat {p : Bytes} (h : p.length + 4 < 2 ^ 32) :
    (UInt32.ofNat (p.length + 4)).toNat = p.length + 4 := by
  rw [UInt32.toNat_ofNat', Nat.mod_eq_of_lt h]

/-- A frame is consumed exactly, whatever the size of the buffer, and the
buffer gets as much of the body as it can take. -/
theorem readmsg_frame (len : Nat) {size : UInt32} {body : Bytes}
    (hsize : size.toNat = body.length + 4) (rest : Bytes) :
    readmsg len (putUint32 size ++ body ++ rest) =
      .ok ((4 + body.length, body.take len), rest) := by
  rw [readmsg, List.append_assoc, bind_apply, lift_ok (encodes_getUint32 size _)]
  have hmbody : (size.toNat : Int) - 4 = body.length := by omega
  simp only [hmbody]
  by_cases hlen : (body.length : Int) < len
  · have hle : body.length ≤ len := by omega
    have hnonneg : ¬ (body.length : Int) < 0 := by omega
    rw [if_pos hlen, if_neg hnonneg, Int.toNat_natCast, bind_apply,
      lift_ok (readFull_append rfl rest), List.take_of_length_le hle]
    rfl
  · have hge : len ≤ body.length := by omega
    have hsplit : body ++ rest = body.take len ++ (body.drop len ++ rest) := by
      rw [← List.append_assoc, List.take_append_drop]
    have htake : len = (body.take len).length := by rw [List.length_take]; omega
    have hdrop : body.length - len = (body.drop len).length := by rw [List.length_drop]
    rw [if_neg hlen, Int.toNat_natCast, hsplit, bind_apply,
      lift_ok (readFull_append htake _)]
    simp only []
    rw [bind_apply, lift_ok (discard_append hdrop rest)]
    have hcount : 4 + len + (body.drop len).length = 4 + body.length := by
      rw [List.length_drop]; omega
    simp only [hcount, Reader.pure_apply]

theorem overwrite_take {p q : Bytes} (h : q.length + 4 ≤ p.length) :
    (overwrite p q).take (4 + q.length) = q ++ (p.drop q.length).take 4 := by
  have hq : q.take p.length = q := List.take_of_length_le (by omega)
  have hlen : 4 + q.length = q.length + 4 := Nat.add_comm ..
  rw [overwrite, hq, hlen, List.take_length_add_append]

/-- What the decoder is run on: the body, and the four bytes that were behind
it in the buffer. -/
def Channel.decoded (ch : Channel) (body : Bytes) : Bytes :=
  body ++ (ch.rdbuf.drop body.length).take 4

theorem receive_frame (ch : Channel) {size : UInt32} {body : Bytes}
    (hsize : size.toNat = body.length + 4) (hfit : body.length + 4 ≤ ch.msize) (rest : Bytes) :
    ch.receive none (putUint32 size ++ body ++ rest) =
      match unmarshal (ch.decoded body) with
      | .error e => .error (.err e)
      | .ok f => .ok ((f, ch.fill body), rest) := by
  have hlen : ch.rdbuf.length = ch.msize := ch.rdbuf_length
  have hbody : body.take ch.rdbuf.length = body := List.take_of_length_le (by omega)
  have hbuf : (ch.fill body).rdbuf.length = ch.msize := (ch.fill body).rdbuf_length
  have hn : ¬ 4 + body.length > (ch.fill body).rdbuf.length := by omega
  have htake : (ch.fill body).rdbuf.take (4 + body.length) = ch.decoded body :=
    overwrite_take (by omega)
  rw [Channel.receive, bind_apply, readmsg_frame _ hsize rest]
  simp only [hbody, hn, if_false, htake]
  cases unmarshal (ch.decoded body) with
  | error e => rfl
  | ok f => rfl

/-- A frame larger than the buffer is refused, with nothing decoded. -/
theorem receive_oversized (ch : Channel) {size : UInt32} {body : Bytes}
    (hsize : size.toNat = body.length + 4) (hbig : ch.msize < body.length + 4) (rest : Bytes) :
    ch.receive none (putUint32 size ++ body ++ rest) =
      .error (.err (.overflow (body.length + 4 - ch.msize))) := by
  have hbuf : ∀ q, (ch.fill q).rdbuf.length = ch.msize := fun q => (ch.fill q).rdbuf_length
  have hn : 4 + body.length > ch.msize := by omega
  have hcount : ((4 + body.length : Nat) : Int) - ch.msize = body.length + 4 - ch.msize := by omega
  rw [Channel.receive, bind_apply, readmsg_frame _ hsize rest]
  simp only [hbuf, hn, if_true, hcount]
  rfl

/-- What a read has done that returns an Fcall. -/
theorem receive_eq_ok {ch ch' : Channel} {stop : Option Err}
    (h : ch.receive stop b = .ok ((f, ch'), rest)) :
    stop = none ∧ ∃ n q, readmsg ch.rdbuf.length b = .ok ((n, q), rest) ∧ n ≤ ch.msize ∧
      unmarshal ((ch.fill q).rdbuf.take n) = .ok f ∧ ch' = ch.fill q := by
  cases stop with
  | some e => cases h
  | none =>
      rw [Channel.receive] at h
      obtain ⟨⟨n, q⟩, mid, hmsg, h⟩ := bind_eq_ok h
      simp only at h
      split at h
      · cases h
      · rename_i hn
        rw [(ch.fill q).rdbuf_length] at hn
        cases hu : unmarshal ((ch.fill q).rdbuf.take n) with
        | error e =>
            rw [hu] at h
            cases h
        | ok g =>
            rw [hu] at h
            cases h
            exact ⟨rfl, n, q, hmsg, Nat.not_lt.mp hn, hu, rfl⟩

theorem readFcall_eq_ok {ch ch' : Channel} {stop : Option Err}
    (h : ch.readFcall stop b = .ok ((f, ch'), rest)) :
    ∃ f₀, ch.receive stop b = .ok ((f₀, ch'), rest) ∧ maybeTruncate ch.msize f₀ = .ok f ∧
      ch'.msize = ch.msize := by
  obtain ⟨⟨f₀, ch₀⟩, mid, hrecv, h⟩ := bind_eq_ok h
  obtain ⟨-, n, q, -, -, -, rfl⟩ := receive_eq_ok hrecv
  have hmsize : (ch.fill q).msize = ch.msize := rfl
  dsimp only at h
  rw [hmsize] at h
  cases htrunc : maybeTruncate ch.msize f₀ with
  | error e =>
      rw [htrunc] at h
      cases h
  | ok g =>
      rw [htrunc] at h
      cases h
      exact ⟨f₀, hrecv, htrunc, rfl⟩

/-! ## Frames that panic -/

/-- The input ends inside the size header, or the header counts at least
itself. -/
def HeaderOk (b : Bytes) : Prop := b.length < 4 ∨ 4 ≤ ofLE (b.take 4)

theorem lift_ne_panic (r : Decoder α) (b : Bytes) : Decoder.lift r b ≠ .error .panic := by
  unfold Decoder.lift
  cases r b <;> nofun

/-- A panic comes from one of the two parts. -/
theorem bind_ne_panic {β : Type} {r : Reader Fault α} {f : α → Reader Fault β}
    (hr : r b ≠ .error .panic) (hf : ∀ a rest, r b = .ok (a, rest) → f a rest ≠ .error .panic) :
    (r >>= f) b ≠ .error .panic := by
  rw [bind_apply]
  cases h : r b with
  | error e =>
      rintro ⟨⟩
      exact hr h
  | ok p => exact hf p.1 p.2 h

theorem getUint32_ok {n : UInt32} (h : getUint32 b = .ok (n, rest)) :
    4 ≤ b.length ∧ n.toNat = ofLE (b.take 4) := by
  obtain ⟨w, mid, hw, hn⟩ := bind_eq_ok h
  cases hn
  obtain ⟨rfl, hlen⟩ := take_eq_ok hw
  have hlt := ofLE_lt w
  rw [hlen] at hlt
  have htake : (w ++ rest).take 4 = w := by rw [← hlen, List.take_left]
  have hle : 4 ≤ (w ++ rest).length := by rw [List.length_append]; omega
  rw [htake]
  exact ⟨hle, UInt32.toNat_ofNat_of_lt' hlt⟩

theorem getUint32_full (h : 4 ≤ b.length) : ∃ n rest, getUint32 b = .ok (n, rest) := by
  have hread : readFull 4 b = .ok (b.take 4, b.drop 4) := if_pos h
  refine ⟨UInt32.ofNat (ofLE (b.take 4)), b.drop 4, ?_⟩
  rw [getUint32, bind_apply, hread]
  rfl

theorem readmsg_ne_panic (len : Nat) (h : HeaderOk b) : readmsg len b ≠ .error .panic := by
  refine bind_ne_panic (lift_ne_panic _ _) fun size rest hsize => ?_
  have hget : getUint32 b = .ok (size, rest) := by
    unfold Decoder.lift at hsize
    cases hb : getUint32 b with
    | error e => rw [hb] at hsize; cases hsize
    | ok p => rw [hb] at hsize; cases hsize; rfl
  obtain ⟨hfull, hnat⟩ := getUint32_ok hget
  have hmin : 4 ≤ size.toNat := by
    rw [hnat]
    exact h.resolve_left (Nat.not_lt.mpr hfull)
  have hbody : ¬ (size.toNat : Int) - 4 < 0 := by omega
  rw [if_neg hbody]
  split
  · exact bind_ne_panic (lift_ne_panic _ _) fun _ _ _ => nofun
  · refine bind_ne_panic (lift_ne_panic _ _) fun _ _ _ => ?_
    exact bind_ne_panic (lift_ne_panic _ _) fun _ _ _ => nofun

theorem readmsg_panics (len : Nat) (h : ¬ HeaderOk b) : readmsg len b = .error .panic := by
  obtain ⟨hfull, hsmall⟩ := not_or.mp h
  obtain ⟨size, rest, hget⟩ := getUint32_full (Nat.not_lt.mp hfull)
  have hnat : size.toNat < 4 := by
    rw [(getUint32_ok hget).2]
    exact Nat.not_le.mp hsmall
  have hbody : (size.toNat : Int) - 4 < 0 := by omega
  have hlen : (size.toNat : Int) - 4 < len := by omega
  rw [readmsg, bind_apply, lift_ok hget]
  dsimp only
  rw [if_pos hlen, if_pos hbody]
  rfl

/-- Behind `readmsg` nothing panics: what it has read fits into the buffer. -/
theorem readFcall_ne_panic (ch : Channel) (h : readmsg ch.rdbuf.length b ≠ .error .panic) :
    ch.readFcall none b ≠ .error .panic := by
  refine bind_ne_panic (bind_ne_panic h fun a rest _ => ?_) fun a rest _ => ?_
  · dsimp only
    split
    · nofun
    · cases unmarshal ((ch.fill a.2).rdbuf.take a.1) <;> nofun
  · dsimp only
    cases maybeTruncate a.2.msize a.1 <;> nofun

/-- **Reading a frame panics** exactly when its size header is there and is
below 4. -/
theorem readFcall_panics_iff (b : Bytes) :
    (∀ len, readmsg len b ≠ .error .panic ↔ HeaderOk b) ∧
      ∀ ch : Channel, ch.readFcall none b ≠ .error .panic ↔ HeaderOk b := by
  have hmsg : ∀ len, readmsg len b ≠ .error .panic ↔ HeaderOk b := fun len =>
    ⟨fun h => by_contra fun hbad => h (readmsg_panics len hbad), readmsg_ne_panic len⟩
  refine ⟨hmsg, fun ch => ⟨fun h => ?_, fun h => readFcall_ne_panic ch ((hmsg _).mpr h)⟩⟩
  by_contra hbad
  refine h ?_
  rw [Channel.readFcall, bind_apply, Channel.receive, bind_apply, readmsg_panics _ hbad]

/-- A frame of size zero is enough. -/
theorem readFcall_zero_size :
    readmsg 16 [0, 0, 0, 0] = .error .panic ∧
      (newChannel 16).readFcall none [0, 0, 0, 0] = .error .panic :=
  ⟨rfl, rfl⟩

/-! ## Which frames the buffer can change -/

/-- The Fcall a read delivers, if it delivers one. -/
def delivered : Except Fault ((Fcall × Channel) × Bytes) → Option Fcall
  | .ok ((f, _), _) => some f
  | .error _ => none

/-- Reading the frame of `body` does not depend on what the buffer held: any
two channels that differ in it deliver the same, and, for a frame that fits,
`ReadFcall` decodes exactly what the body alone decodes to. -/
def FrameIsolated (msize : Nat) (size : UInt32) (body : Bytes) : Prop :=
  (∀ (stop : Option Err) (ch ch' : Channel), ch.msize = msize → ch'.msize = msize → ∀ rest,
    delivered (ch.readFcall stop (putUint32 size ++ body ++ rest)) =
      delivered (ch'.readFcall stop (putUint32 size ++ body ++ rest))) ∧
  (body.length + 4 ≤ msize → ∀ ch : Channel, ch.msize = msize → ∀ rest f,
    delivered (ch.receive none (putUint32 size ++ body ++ rest)) = some f ↔
      unmarshal body = .ok f)

/-- `body` is a complete message without its last one to four bytes. -/
def CutShort (body : Bytes) : Prop :=
  ∃ w f, decodeFcall w = .ok (f, []) ∧ body <+: w ∧
    body.length < w.length ∧ w.length ≤ body.length + 4

/-- A message cut short is not itself accepted: accepted messages are
prefix-free. -/
theorem CutShort.not_ok {body : Bytes} (h : CutShort body) (f : Fcall) :
    unmarshal body ≠ .ok f := by
  intro hok
  obtain ⟨w, g, hw, ⟨ext, rfl⟩, hlt, -⟩ := h
  obtain ⟨rest, hbody⟩ := unmarshal_eq_ok hok
  have happ := stable_decodeFcall.append hbody ext
  rw [hw] at happ
  simp only [Except.ok.injEq, Prod.mk.injEq] at happ
  have hext : ext = [] := (List.append_eq_nil_iff.mp happ.2.symm).2
  subst hext
  simp at hlt

/-- If four bytes behind the body turn a refusal into an acceptance, the body
is a message cut short. -/
theorem cutShort_of_extended {body stale : Bytes} (hstale : stale.length ≤ 4)
    (hbody : ∀ g, unmarshal body ≠ .ok g) (hext : unmarshal (body ++ stale) = .ok f) :
    CutShort body := by
  obtain ⟨rest, hdec⟩ := unmarshal_eq_ok hext
  have hfail : ∀ p, decodeFcall body ≠ .ok p := by
    intro p hp
    exact hbody p.1 (by rw [unmarshal, hp])
  obtain ⟨w, hw, henc, hlt⟩ := stable_decodeFcall.cut_of_extended hfail hdec
  have hcomplete : decodeFcall w = .ok (f, []) := by
    have h := henc []
    rwa [List.append_nil] at h
  have hpre : body <+: w :=
    List.prefix_of_prefix_length_le ⟨stale, hw⟩ ⟨rest, rfl⟩ (Nat.le_of_lt hlt)
  have hlen : body.length + stale.length = w.length + rest.length := by
    rw [← List.length_append, hw, List.length_append]
  exact ⟨w, f, hcomplete, hpre, hlt, by omega⟩

theorem delivered_receive (ch : Channel) {size : UInt32} {body : Bytes}
    (hsize : size.toNat = body.length + 4) (hfit : body.length + 4 ≤ ch.msize) (rest : Bytes)
    (f : Fcall) :
    delivered (ch.receive none (putUint32 size ++ body ++ rest)) = some f ↔
      unmarshal (ch.decoded body) = .ok f := by
  rw [receive_frame ch hsize hfit rest]
  cases unmarshal (ch.decoded body) with
  | error e => simp [delivered]
  | ok g => simp [delivered]

/-- The truncation step is a function of the message size and the decoded
Fcall. -/
theorem delivered_readFcall (ch : Channel) (stop : Option Err) (b : Bytes) :
    delivered (ch.readFcall stop b) =
      (delivered (ch.receive stop b)).bind fun f => (maybeTruncate ch.msize f).toOption := by
  rw [Channel.readFcall, bind_apply]
  cases hr : ch.receive stop b with
  | error e => rfl
  | ok p =>
      obtain ⟨⟨f, ch'⟩, rest⟩ := p
      obtain ⟨-, n, q, -, -, -, rfl⟩ := receive_eq_ok hr
      show delivered ((match maybeTruncate ch.msize f with
        | .error e => Reader.fail (.err e)
        | .ok f => return (f, ch.fill q) : Reader Fault (Fcall × Channel)) rest) =
          (maybeTruncate ch.msize f).toOption
      cases maybeTruncate ch.msize f with
      | error e => rfl
      | ok g => rfl

/-- Some buffer completes a message cut short. -/
theorem CutShort.exists_completing {msize : Nat} {body : Bytes} (h : CutShort body)
    (hfit : body.length + 4 ≤ msize) :
    ∃ (ch : Channel) (f : Fcall), ch.msize = msize ∧ unmarshal (ch.decoded body) = .ok f := by
  obtain ⟨w, f, hw, ⟨ext, rfl⟩, hlt, hle⟩ := h
  rw [List.length_append] at hlt hle
  -- the missing bytes sit right where the body ends
  let buf : Bytes :=
    List.replicate body.length 0 ++ (ext ++ List.replicate (msize - body.length - ext.length) 0)
  have hbuf : buf.length = msize := by
    simp only [buf, List.length_append, List.length_replicate]
    omega
  refine ⟨⟨msize, buf, hbuf⟩, f, rfl, ?_⟩
  have hdrop : buf.drop body.length =
      ext ++ List.replicate (msize - body.length - ext.length) 0 :=
    List.drop_left' (List.length_replicate ..)
  obtain ⟨tail, htail⟩ : ∃ tail, (buf.drop body.length).take 4 = ext ++ tail := by
    rw [hdrop, List.take_append, List.take_of_length_le (by omega)]
    exact ⟨_, rfl⟩
  have hok : unmarshal (body ++ ext) = .ok f := by rw [unmarshal, hw]
  show unmarshal (body ++ (buf.drop body.length).take 4) = .ok f
  rw [htail, ← List.append_assoc]
  exact unmarshal_append hok tail

/-- **Frames that leak.**  Reading a frame is independent of the buffer exactly
when its body is not a complete message cut short by one to four bytes.  (A
frame over the size limit is refused in any case.) -/
theorem isolated_iff (msize : Nat) (size : UInt32) (body : Bytes)
    (hsize : size.toNat = body.length + 4) :
    FrameIsolated msize size body ↔ (body.length + 4 ≤ msize → ¬ CutShort body) := by
  constructor
  · rintro ⟨-, hdec⟩ hfit hcut
    obtain ⟨ch, f, hch, hf⟩ := hcut.exists_completing hfit
    have hrecv := (delivered_receive ch hsize (hch ▸ hfit) [] f).mpr hf
    exact hcut.not_ok f ((hdec hfit ch hch [] f).mp hrecv)
  · intro hcut
    have hdec : body.length + 4 ≤ msize → ∀ ch : Channel, ch.msize = msize → ∀ rest f,
        delivered (ch.receive none (putUint32 size ++ body ++ rest)) = some f ↔
          unmarshal body = .ok f := by
      intro hfit ch hch rest f
      rw [delivered_receive ch hsize (hch ▸ hfit) rest f]
      constructor
      · intro hf
        cases hb : unmarshal body with
        | ok g => rw [Channel.decoded, unmarshal_append hb] at hf; exact hf
        | error err =>
            exfalso
            refine hcut hfit (cutShort_of_extended (List.length_take_le ..) ?_ hf)
            simp [hb]
      · intro hf
        exact unmarshal_append hf _
    refine ⟨fun stop ch ch' hch hch' rest => ?_, hdec⟩
    rw [delivered_readFcall, delivered_readFcall, hch, hch']
    congr 1
    cases stop with
    | some e => rfl
    | none =>
        by_cases hfit : body.length + 4 ≤ msize
        · apply Option.ext
          intro f
          rw [hdec hfit ch hch rest f, hdec hfit ch' hch' rest f]
        · rw [receive_oversized ch hsize (by omega) rest,
            receive_oversized ch' hsize (by omega) rest]
          rfl

theorem isolated_iff_rclunk :
    (7 : UInt32).toNat = [121, 1, 0].length + 4 ∧
      (FrameIsolated 16 7 [121, 1, 0] ↔ ([121, 1, 0].length + 4 ≤ 16 → ¬ CutShort [121, 1, 0])) :=
  ⟨by decide, isolated_iff 16 7 [121, 1, 0] (by decide)⟩

/-- A `Tclunk` sent without its fid: the body alone is refused, and the fid
clunked is the one left in the buffer. -/
theorem tclunk_fid_from_buffer :
    unmarshal [120, 1, 0] = .error .eof ∧
      delivered ((Channel.mk 16 (List.replicate 16 7) rfl).readFcall none
          (putUint32 7 ++ [120, 1, 0] ++ [])) = some (newFcall 1 (.tclunk 0x07070707)) ∧
      delivered ((Channel.mk 16 (List.replicate 16 9) rfl).readFcall none
          (putUint32 7 ++ [120, 1, 0] ++ [])) = some (newFcall 1 (.tclunk 0x09090909)) ∧
      ¬ FrameIsolated 16 7 [120, 1, 0] := by
  refine ⟨by decide, by decide, by decide, fun h => ?_⟩
  have heq := h.1 none (Channel.mk 16 (List.replicate 16 7) rfl)
    (Channel.mk 16 (List.replicate 16 9) rfl) rfl rfl []
  revert heq
  decide

end P9p
