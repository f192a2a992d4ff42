/-
# `P9p.ReadLoop` — `ReadFcall` again after a timeout

Both ends of a connection read in a loop: `conn.read` in the server and the
goroutine in `transport.handle` in the client.  If `ReadFcall` returns a
timeout, they call it again.

`ReadFcall` keeps no record of what it had read by then.  If the timeout comes
in the middle of a frame, the next call takes the bytes that follow for the
header of a frame.  So the loops stay in step with the frames exactly if every
timeout falls between two of them (`readLoop_inSync_iff`); the comment in
`transport.handle` calls this a bug.  `twrite_as_tclunk` is a delivery with one
timeout in which the data of a `Twrite` is obeyed as a `Tclunk`.

In this module the connection is a delivery (`P9p.Lib.Delivery`).  For one
without timeouts, `ReadFcall` is the one of `P9p.Channel` (`readFcallFrom_bytes`).
-/
import P9p.Channel.Fit
import P9p.Channel.Stream
import P9p.Lib.Delivery
import Mathlib.Data.List.Infix

namespace P9p

open Wire Wire.Reader

variable {bs : Bytes} {f : Fcall}

/-! ## `ReadFcall` on a delivery -/

/-- How a call of `ReadFcall` ends that returns no Fcall: with a `net.Error`
that is a timeout or temporary, or otherwise. -/
inductive ReadErr where
  | timeout
  | fault (f : Fault)
  deriving DecidableEq, Repr

/-- The error of a read that was cut short; `short` is the one for a connection
that ended after some bytes. -/
def breakErr (got : Bytes) (short : Err) : Break → ReadErr
  | .timeout => .timeout
  | .ended => .fault (.err (if got.isEmpty then .eof else short))

/-- The bytes that were read, and the error. -/
def takeFrom (short : Err) (n : Nat) (items : List Item) : Bytes × Option ReadErr × List Item :=
  let (got, stop, rest) := gather n items
  (got, stop.map (breakErr got short), rest)

/-- `io.ReadFull`. -/
def readFullFrom : Nat → List Item → Bytes × Option ReadErr × List Item := takeFrom .unexpectedEOF

/-- `io.CopyN` into `ioutil.Discard`. -/
def discardFrom : Nat → List Item → Bytes × Option ReadErr × List Item := takeFrom .eof

/-- `readmsg` with a buffer of `len` bytes: what it returns, and the bytes it
stores in the buffer.  The header is read into a variable of its own. -/
def readmsgFrom (len : Nat) (items : List Item) : Except ReadErr Nat × Bytes × List Item :=
  match readFullFrom 4 items with
  | (_, some e, rest) => (.error e, [], rest)
  | (header, none, rest) =>
      let mbody : Int := ((UInt32.ofNat (ofLE header)).toNat : Int) - 4
      if mbody < len then
        if mbody < 0 then (.error (.fault .panic), [], rest)
        else
          match readFullFrom mbody.toNat rest with
          | (q, some e, rest) => (.error e, q, rest)
          | (q, none, rest) => (.ok (4 + mbody.toNat), q, rest)
      else
        match readFullFrom len rest with
        | (q, some e, rest) => (.error e, q, rest)
        | (q, none, rest) =>
            match discardFrom (mbody.toNat - len) rest with
            | (_, some e, rest) => (.error e, q, rest)
            | (d, none, rest) => (.ok (4 + len + d.length), q, rest)

/-- What `ReadFcall` makes of `n` bytes of its buffer. -/
def Channel.decode (ch : Channel) (n : Nat) : Except Fault Fcall :=
  if n > ch.rdbuf.length then .error (.err (.overflow (n - ch.rdbuf.length)))
  else
    match unmarshal (ch.rdbuf.take n) with
    | .error e => .error (.err e)
    | .ok f =>
        match maybeTruncate ch.msize f with
        | .error e => .error (.err e)
        | .ok f => .ok f

def Channel.readFcallFrom (ch : Channel) (items : List Item) :
    Except ReadErr Fcall × Channel × List Item :=
  let (count, q, rest) := readmsgFrom ch.rdbuf.length items
  let ch := ch.fill q
  match count with
  | .error e => (.error e, ch, rest)
  | .ok n => ((ch.decode n).mapError .fault, ch, rest)

/-! ## The loops -/

/-- One call of `ReadFcall`: what was still to come when it began, and what it
returned. -/
structure Attempt where
  left : List Item
  result : Except ReadErr Fcall

/-- The calls of a loop, and the fault with which it closes the connection, for
the one that ended it.  `fuel` bounds their number. -/
def readCalls (closing : Fault → Fault) : Nat → Channel → List Item → List Attempt × Option Fault
  | 0, _, _ => ([], none)
  | fuel + 1, ch, items =>
      match ch.readFcallFrom items with
      | (.error (.fault f), _, _) => ([⟨items, .error (.fault f)⟩], some (closing f))
      | (.error .timeout, ch, rest) =>
          let (calls, fault) := readCalls closing fuel ch rest
          (⟨items, .error .timeout⟩ :: calls, fault)
      | (.ok fcall, ch, rest) =>
          let (calls, fault) := readCalls closing fuel ch rest
          (⟨items, .ok fcall⟩ :: calls, fault)

/-- A loop that goes on until a call fails for good.  Every other call takes
something off the connection. -/
def readLoop (closing : Fault → Fault) (ch : Channel) (items : List Item) :
    List Attempt × Option Fault :=
  readCalls closing (items.length + 1) ch items

/-- `conn.read`. -/
def connRead : Channel → List Item → List Attempt × Option Fault :=
  readLoop fun
    | .err e => .err (.other (lit "error reading fcall: " ++ e.error))
    | .panic => .panic

/-- The reader of `transport.handle`, which logs the error. -/
def transportRead : Channel → List Item → List Attempt × Option Fault := readLoop id

/-- The Fcalls that a loop passes on. -/
def passedOn (calls : List Attempt) : List Fcall := calls.filterMap fun a => a.result.toOption

/-! ## What is wanted of them -/

/-- An Fcall as a peer sends it: held by value, with fields that the wire format
can hold, in a frame that fits. -/
structure WellFormed (msize : Nat) (f : Fcall) : Prop where
  message : ∃ m, f.message = .value m ∧ f.type = m.type ∧ m.Encodable
  fits : f.encode.length + 4 ≤ msize
  short : f.encode.length + 4 < 2 ^ 32

/-- The frames of `fs`. -/
def stream (fs : List Fcall) : Bytes := sendmsgs (fs.map Fcall.encode)

/-- What is still to come are some last frames of `fs`, all of each. -/
def AtFrame (fs : List Fcall) (items : List Item) : Prop :=
  ∃ gs ∈ fs.tails, content items = stream gs

/-- The loop passes on what it passes on without timeouts, or less if a fault
ends it, and calls `ReadFcall` at the start of a frame only. -/
structure InSync (fs expected : List Fcall) (calls : List Attempt) : Prop where
  passed : passedOn calls <+: expected
  starts : ∀ a ∈ calls, AtFrame fs a.left

/-- Every timeout falls between two frames of `fs`, before the first or after
the last. -/
def OnBoundaries (fs : List Fcall) : List Item → Prop
  | [] => True
  | .byte _ :: items => OnBoundaries fs items
  | .timeout :: items => AtFrame fs items ∧ OnBoundaries fs items

instance (fs : List Fcall) (items : List Item) : Decidable (AtFrame fs items) :=
  inferInstanceAs (Decidable (∃ gs ∈ fs.tails, _))

instance decidableOnBoundaries (fs : List Fcall) :
    (items : List Item) → Decidable (OnBoundaries fs items)
  | [] => isTrue trivial
  | .byte _ :: items => decidableOnBoundaries fs items
  | .timeout :: items =>
      have := decidableOnBoundaries fs items
      inferInstanceAs (Decidable (AtFrame fs items ∧ OnBoundaries fs items))

/-! ## One call -/

/-- `ReadFcall` in two steps. -/
theorem readFcall_decode (ch : Channel) (b : Bytes) :
    ch.readFcall none b =
      match readmsg ch.rdbuf.length b with
      | .error e => .error e
      | .ok ((n, q), rest) =>
          match (ch.fill q).decode n with
          | .error e => .error e
          | .ok f => .ok ((f, ch.fill q), rest) := by
  rw [Channel.readFcall, Channel.receive, bind_apply, bind_apply]
  cases readmsg ch.rdbuf.length b with
  | error e => rfl
  | ok p =>
      obtain ⟨⟨n, q⟩, rest⟩ := p
      by_cases hn : n > (ch.fill q).rdbuf.length
      · simp only [Channel.decode, hn, if_true]
        rfl
      · simp only [Channel.decode, hn, if_false]
        cases unmarshal ((ch.fill q).rdbuf.take n) with
        | error e => rfl
        | ok f =>
            dsimp only [pure_apply]
            cases maybeTruncate (ch.fill q).msize f with
            | error e => rfl
            | ok g => rfl

/-! ### Without timeouts -/

theorem gather_map (n : Nat) (b : Bytes) :
    gather n (b.map .byte) =
      if n ≤ b.length then (b.take n, none, (b.drop n).map .byte) else (b, some .ended, []) := by
  split
  · rename_i hle
    have h := gather_bytes (b.take n) ((b.drop n).map .byte)
    rwa [← List.map_append, List.take_append_drop, List.length_take_of_le hle] at h
  · rename_i hlt
    exact gather_ended (Nat.not_le.mp hlt)

theorem takeFrom_map (short : Err) (n : Nat) (b : Bytes) :
    takeFrom short n (b.map .byte) =
      match Reader.take Err.eof short n b with
      | .ok (w, rest) => (w, none, rest.map .byte)
      | .error e => (b, some (.fault (.err e)), []) := by
  rw [takeFrom, gather_map, Reader.take]
  by_cases hle : n ≤ b.length
  · rw [if_pos hle, if_pos hle]
    rfl
  · rw [if_neg hle, if_neg hle]
    cases b with
    | nil => rfl
    | cons x b => rfl

theorem readmsgFrom_map (len : Nat) (b : Bytes) :
    match readmsg len b with
    | .ok ((n, q), rest) => readmsgFrom len (b.map .byte) = (.ok n, q, rest.map .byte)
    | .error e => ∃ q rest, readmsgFrom len (b.map .byte) = (.error (.fault e), q, rest) := by
  have hlift : ∀ (short : Err) (n : Nat) (b : Bytes),
      Decoder.lift (Reader.take Err.eof short n) b =
        match Reader.take Err.eof short n b with
        | .ok p => .ok p
        | .error e => .error (.err e) := by
    intro short n b
    rw [Decoder.lift]
    cases Reader.take Err.eof short n b with
    | error e => rfl
    | ok p => rfl
  rw [readmsg, readmsgFrom, bind_apply, readFullFrom, takeFrom_map]
  have hhead : Decoder.lift getUint32 b =
      match Reader.take Err.eof Err.unexpectedEOF 4 b with
      | .ok (w, rest) => .ok (UInt32.ofNat (ofLE w), rest)
      | .error e => .error (.err e) := by
    rw [Decoder.lift, getUint32, bind_apply, readFull]
    cases Reader.take Err.eof Err.unexpectedEOF 4 b with
    | error e => rfl
    | ok p => rfl
  rw [hhead]
  cases Reader.take Err.eof Err.unexpectedEOF 4 b with
  | error e => exact ⟨_, _, rfl⟩
  | ok p =>
      obtain ⟨w, rest⟩ := p
      dsimp only
      generalize ((UInt32.ofNat (ofLE w)).toNat : Int) - 4 = mbody
      by_cases hlen : mbody < len
      · by_cases hneg : mbody < 0
        · simp only [hlen, hneg, if_true]
          exact ⟨_, _, rfl⟩
        · simp only [hlen, hneg, if_true, if_false]
          rw [bind_apply, readFull, hlift, takeFrom_map]
          cases Reader.take Err.eof Err.unexpectedEOF mbody.toNat rest with
          | error e => exact ⟨_, _, rfl⟩
          | ok p => rfl
      · simp only [hlen, if_false]
        rw [bind_apply, readFull, hlift, takeFrom_map]
        cases Reader.take Err.eof Err.unexpectedEOF len rest with
        | error e => exact ⟨_, _, rfl⟩
        | ok p =>
            dsimp only
            rw [bind_apply, discard, hlift, discardFrom, takeFrom_map]
            cases Reader.take Err.eof Err.eof (mbody.toNat - len) p.2 with
            | error e => exact ⟨_, _, rfl⟩
            | ok p => rfl

/-- Without timeouts, `ReadFcall` is the one of `P9p.Channel`. -/
theorem readFcallFrom_bytes (ch : Channel) (b : Bytes) :
    match ch.readFcall none b with
    | .ok ((f, ch'), rest) => ch.readFcallFrom (b.map .byte) = (.ok f, ch', rest.map .byte)
    | .error e => (ch.readFcallFrom (b.map .byte)).1 = .error (.fault e) := by
  have hmsg := readmsgFrom_map ch.rdbuf.length b
  rw [readFcall_decode]
  cases hr : readmsg ch.rdbuf.length b with
  | error e =>
      rw [hr] at hmsg
      obtain ⟨q, rest, hmsg⟩ := hmsg
      simp only [Channel.readFcallFrom, hmsg]
  | ok p =>
      obtain ⟨⟨n, q⟩, rest⟩ := p
      rw [hr] at hmsg
      simp only [Channel.readFcallFrom, hmsg]
      cases (ch.fill q).decode n with
      | error e => rfl
      | ok f => rfl

/-! ### A frame in one piece -/

theorem readFullFrom_bytes {n : Nat} {w : Bytes} (hn : n = w.length) (rest : List Item) :
    readFullFrom n (w.map .byte ++ rest) = (w, none, rest) := by
  subst hn
  rw [readFullFrom, takeFrom, gather_bytes]
  rfl

theorem readFullFrom_timeout {n : Nat} {w : Bytes} (hn : w.length < n) (rest : List Item) :
    readFullFrom n (w.map .byte ++ .timeout :: rest) = (w, some .timeout, rest) := by
  rw [readFullFrom, takeFrom, gather_timeout hn]
  rfl

/-- The header that is read. -/
theorem header_toNat {size : UInt32} {body : Bytes} (hsize : size.toNat = body.length + 4) :
    ((UInt32.ofNat (ofLE (putUint32 size))).toNat : Int) - 4 = body.length := by
  rw [ofLE_putUint32, UInt32.ofNat_toNat]
  omega

theorem readmsgFrom_frame {len : Nat} {size : UInt32} {body : Bytes}
    (hsize : size.toNat = body.length + 4) (hfit : body.length < len) (rest : List Item) :
    readmsgFrom len ((putUint32 size ++ body).map .byte ++ rest) =
      (.ok (4 + body.length), body, rest) := by
  have hlt : (body.length : Int) < len := by omega
  have hnonneg : ¬ (body.length : Int) < 0 := by omega
  rw [List.map_append, List.append_assoc, readmsgFrom,
    readFullFrom_bytes (putUint32_length size).symm]
  simp only [header_toNat hsize, hlt, hnonneg, if_true, if_false, Int.toNat_natCast]
  rw [readFullFrom_bytes rfl]

/-- A timeout before the end of the frame: what was read is gone. -/
theorem readmsgFrom_cut {len : Nat} {size : UInt32} {body : Bytes}
    (hsize : size.toNat = body.length + 4) (hfit : body.length < len)
    (hpre : bs <+: putUint32 size ++ body) (hlt : bs.length < body.length + 4) (rest : List Item) :
    ∃ q, readmsgFrom len (bs.map .byte ++ .timeout :: rest) = (.error .timeout, q, rest) := by
  by_cases hhead : bs.length < 4
  · refine ⟨[], ?_⟩
    rw [readmsgFrom, readFullFrom_timeout hhead]
  · -- the header is complete
    obtain ⟨bs', rfl⟩ : putUint32 size <+: bs := by
      refine List.prefix_of_prefix_length_le (List.prefix_append ..) hpre ?_
      rw [putUint32_length]
      exact Nat.not_lt.mp hhead
    have hlen : (body.length : Int) < len := by omega
    have hnonneg : ¬ (body.length : Int) < 0 := by omega
    rw [List.length_append, putUint32_length] at hlt
    refine ⟨bs', ?_⟩
    rw [List.map_append, List.append_assoc, readmsgFrom,
      readFullFrom_bytes (putUint32_length size).symm]
    simp only [header_toNat hsize, hlen, hnonneg, if_true, if_false, Int.toNat_natCast]
    rw [readFullFrom_timeout (by omega)]

/-- The size in the frame of `f` is right. -/
theorem WellFormed.size {msize : Nat} (h : WellFormed msize f) :
    (UInt32.ofNat (f.encode.length + 4)).toNat = f.encode.length + 4 :=
  sendmsg_toNat h.short

/-- What `ReadFcall` returns for it. -/
def Fcall.truncated (msize : Nat) (f : Fcall) : Fcall :=
  match maybeTruncate msize f with
  | .ok g => g
  | .error _ => f

theorem WellFormed.truncate {msize : Nat} (h : WellFormed msize f) :
    maybeTruncate msize f = .ok (f.truncated msize) := by
  obtain ⟨m, hm, -, -⟩ := h.message
  have hok : ∃ g, maybeTruncate msize f = .ok g := by
    have hsize : msgmsize f ≤ msize := by
      have hfit := h.fits
      have hmod := Nat.mod_le f.encode.length (2 ^ 32)
      rw [msgmsize, channelMessageHeaderSize, Fcall.size_toNat hm]
      omega
    obtain ⟨fid, offset, count, rfl⟩ | ⟨fid, offset, data, rfl⟩ | ⟨hcut, -⟩ := m.cut_cases
    · obtain ⟨count', hok⟩ := maybeTruncate_tread_ok msize hm
      exact ⟨_, hok⟩
    · simp only [maybeTruncate, hm, hsize, if_true]
      exact ⟨f, rfl⟩
    · exact ⟨f, maybeTruncate_same hm hcut h.fits⟩
  obtain ⟨g, hg⟩ := hok
  rw [Fcall.truncated, hg]

theorem readFcallFrom_frame {ch : Channel} (h : WellFormed ch.msize f) (rest : List Item) :
    ch.readFcallFrom ((sendmsg f.encode).map .byte ++ rest) =
      (.ok (f.truncated ch.msize), ch.fill f.encode, rest) := by
  have hfit := h.fits
  obtain ⟨m, hm, htype, hok⟩ := h.message
  -- what it makes of the buffer is known from `ReadFcall` on the frame alone
  have hdecode : (ch.fill f.encode).decode (4 + f.encode.length) = .ok (f.truncated ch.msize) := by
    have hread := readFcall_sendmsg ch hm htype hok h.fits h.short h.truncate []
    have hmsg := readmsg_frame ch.rdbuf.length h.size []
    have htake : f.encode.take ch.rdbuf.length = f.encode := by
      rw [ch.rdbuf_length]
      exact List.take_of_length_le (by omega)
    rw [htake] at hmsg
    rw [readFcall_decode, sendmsg, hmsg] at hread
    dsimp only at hread
    cases hd : (ch.fill f.encode).decode (4 + f.encode.length) with
    | error e =>
        rw [hd] at hread
        cases hread
    | ok g =>
        rw [hd] at hread
        cases hread
        rfl
  have hlt : f.encode.length < ch.rdbuf.length := by
    rw [ch.rdbuf_length]
    omega
  rw [Channel.readFcallFrom, sendmsg, readmsgFrom_frame h.size hlt]
  dsimp only
  rw [hdecode]
  rfl

theorem readFcallFrom_cut {ch : Channel} (h : WellFormed ch.msize f)
    (hpre : bs <+: sendmsg f.encode) (hlt : bs.length < (sendmsg f.encode).length)
    (rest : List Item) :
    ∃ ch', ch.readFcallFrom (bs.map .byte ++ .timeout :: rest) = (.error .timeout, ch', rest) ∧
      ch'.msize = ch.msize := by
  have hfit := h.fits
  rw [sendmsg, List.length_append, putUint32_length] at hlt
  have hlen : f.encode.length < ch.rdbuf.length := by
    rw [ch.rdbuf_length]
    omega
  obtain ⟨q, hcut⟩ := readmsgFrom_cut h.size hlen hpre (by omega) rest
  refine ⟨ch.fill q, ?_, rfl⟩
  rw [Channel.readFcallFrom, hcut]

/-! ## Between two frames -/

theorem stream_cons (f : Fcall) (gs : List Fcall) :
    stream (f :: gs) = sendmsg f.encode ++ stream gs := rfl

theorem stream_append (fs gs : List Fcall) : stream (fs ++ gs) = stream fs ++ stream gs := by
  rw [stream, List.map_append, sendmsgs, List.flatMap_append]
  rfl

theorem sendmsg_length (p : Bytes) : (sendmsg p).length = 4 + p.length := by
  rw [sendmsg, List.length_append, putUint32_length]

/-- What a delivery of `gs` begins with: nothing, a timeout, a frame, or a part
of a frame and a timeout. -/
theorem delivery_cases {gs : List Fcall} {items : List Item} (h : content items = stream gs) :
    (items = [] ∧ gs = []) ∨
    (∃ rest, items = .timeout :: rest ∧ content rest = stream gs) ∨
    (∃ f gs' rest, gs = f :: gs' ∧ items = (sendmsg f.encode).map .byte ++ rest ∧
      content rest = stream gs') ∨
    ∃ f gs' bs bs' rest, gs = f :: gs' ∧ items = bs.map .byte ++ .timeout :: rest ∧
      sendmsg f.encode = bs ++ bs' ∧ bs ≠ [] ∧ bs' ≠ [] ∧ content rest = bs' ++ stream gs' := by
  cases gs with
  | nil =>
      cases items with
      | nil => exact Or.inl ⟨rfl, rfl⟩
      | cons item rest =>
          cases item with
          | byte b => cases h
          | timeout => exact Or.inr (Or.inl ⟨rest, rfl, h⟩)
  | cons f gs =>
      rw [stream_cons] at h
      have hlen : (sendmsg f.encode).length ≤ (content items).length := by
        rw [h, List.length_append]
        exact Nat.le_add_right ..
      rcases split_at hlen with ⟨bs, rest, rfl, hbs⟩ | ⟨bs, rest, rfl, hlt⟩
      · rw [content_append, content_map_byte] at h
        obtain ⟨rfl, hrest⟩ := List.append_inj h hbs
        exact Or.inr (Or.inr (Or.inl ⟨f, gs, rest, rfl, rfl, hrest⟩))
      · rw [content_append, content_map_byte, content] at h
        cases bs with
        | nil => exact Or.inr (Or.inl ⟨rest, rfl, h⟩)
        | cons b bs =>
            obtain ⟨bs', hsplit⟩ : b :: bs <+: sendmsg f.encode :=
              List.prefix_of_prefix_length_le (h ▸ List.prefix_append ..) (List.prefix_append ..)
                (Nat.le_of_lt hlt)
            refine Or.inr (Or.inr (Or.inr ⟨f, gs, b :: bs, bs', rest, rfl, rfl, hsplit.symm,
              List.cons_ne_nil b bs, ?_, ?_⟩))
            · rintro rfl
              rw [← hsplit, List.append_nil] at hlt
              exact Nat.lt_irrefl _ hlt
            · rw [← hsplit, List.append_assoc] at h
              exact List.append_cancel_left h

/-- In the middle of a frame, what is still to come are no whole frames. -/
theorem not_atFrame {fs gs : List Fcall} {bs' : Bytes} {rest : List Item} (hgs : f :: gs <:+ fs)
    (hsplit : sendmsg f.encode = bs ++ bs') (hbs : bs ≠ []) (hbs' : bs' ≠ [])
    (hrest : content rest = bs' ++ stream gs) : ¬ AtFrame fs rest := by
  rintro ⟨ks, hks, heq⟩
  have hmono : ∀ {ks gs : List Fcall}, ks <:+ gs → (stream ks).length ≤ (stream gs).length := by
    rintro ks _ ⟨pre, rfl⟩
    rw [stream_append, List.length_append]
    exact Nat.le_add_left ..
  have hpos : 0 < bs.length := List.length_pos_iff.mpr hbs
  have hpos' : 0 < bs'.length := List.length_pos_iff.mpr hbs'
  have hlen : (stream ks).length = bs'.length + (stream gs).length := by
    rw [← heq, hrest, List.length_append]
  have hall : (stream (f :: gs)).length = bs.length + bs'.length + (stream gs).length := by
    rw [stream_cons, hsplit, List.length_append, List.length_append]
  rcases List.suffix_or_suffix_of_suffix ((List.mem_tails ks fs).mp hks) hgs with hsub | hsub
  · rcases List.suffix_cons_iff.mp hsub with rfl | hsub
    · omega
    · have hle := hmono hsub
      omega
  · have hle := hmono hsub
    omega

theorem onBoundaries_bytes (fs : List Fcall) (bs : Bytes) (rest : List Item) :
    OnBoundaries fs (bs.map .byte ++ rest) ↔ OnBoundaries fs rest := by
  induction bs with
  | nil => exact Iff.rfl
  | cons b bs ih => exact ih

/-! ## The loop -/

section Loop

variable (closing : Fault → Fault) {fs gs : List Fcall} {ch : Channel} {items : List Item}
  {msize fuel : Nat}

/-- Every loop begins with a call. -/
theorem readCalls_head (ch : Channel) (items : List Item) (hfuel : 0 < fuel) :
    ∃ a ∈ (readCalls closing fuel ch items).1, a.left = items := by
  cases fuel with
  | zero => cases hfuel
  | succ fuel =>
      rw [readCalls]
      split
      · exact ⟨_, List.mem_cons_self, rfl⟩
      · exact ⟨_, List.mem_cons_self, rfl⟩
      · exact ⟨_, List.mem_cons_self, rfl⟩

/-- Enough fuel is left behind a frame. -/
theorem length_behind_frame {body : Bytes} {rest : List Item}
    (h : ((sendmsg body).map Item.byte ++ rest).length < fuel + 1) : rest.length < fuel := by
  rw [List.length_append, List.length_map, sendmsg_length] at h
  omega

/-- Timeouts between frames are harmless. -/
theorem readCalls_onBoundaries (hch : ch.msize = msize) (hfs : ∀ f ∈ fs, WellFormed msize f)
    (hgs : gs <:+ fs) (hitems : content items = stream gs) (hon : OnBoundaries fs items)
    (hfuel : items.length < fuel) :
    passedOn (readCalls closing fuel ch items).1 = gs.map (Fcall.truncated msize) ∧
      ∀ a ∈ (readCalls closing fuel ch items).1, AtFrame fs a.left := by
  induction fuel generalizing ch items gs with
  | zero => cases hfuel
  | succ fuel ih =>
      have hstart : AtFrame fs items := ⟨gs, (List.mem_tails gs fs).mpr hgs, hitems⟩
      rcases delivery_cases hitems with ⟨rfl, rfl⟩ | ⟨rest, rfl, hrest⟩ |
        ⟨f, gs', rest, rfl, rfl, hrest⟩ |
        ⟨f, gs', bs, bs', rest, rfl, rfl, hsplit, hbs, hbs', hrest⟩
      · -- the end of the connection
        refine ⟨rfl, fun a ha => ?_⟩
        cases List.mem_singleton.mp ha
        exact hstart
      · have hch' : (ch.fill []).msize = msize := hch
        obtain ⟨hpassed, hstarts⟩ := ih hch' hgs hrest hon.2 (Nat.lt_of_succ_lt_succ hfuel)
        refine ⟨hpassed, fun a ha => ?_⟩
        rcases List.mem_cons.mp ha with rfl | ha
        · exact hstart
        · exact hstarts a ha
      · have hf : WellFormed ch.msize f := hch ▸ hfs f (hgs.subset List.mem_cons_self)
        have hcall := readFcallFrom_frame hf rest
        have hlen := length_behind_frame hfuel
        have hch' : (ch.fill f.encode).msize = msize := hch
        obtain ⟨hpassed, hstarts⟩ := ih hch' ((List.suffix_cons f gs').trans hgs) hrest
          ((onBoundaries_bytes fs _ rest).mp hon) hlen
        rw [readCalls, hcall]
        refine ⟨?_, fun a ha => ?_⟩
        · rw [List.map_cons, ← hpassed, ← hch]
          rfl
        · rcases List.mem_cons.mp ha with rfl | ha
          · exact hstart
          · exact hstarts a ha
      · have hat : AtFrame fs rest := ((onBoundaries_bytes fs bs _).mp hon).1
        exact absurd hat (not_atFrame hgs hsplit hbs hbs' hrest)

/-- After a timeout in a frame, the loop goes on in the middle of it. -/
theorem readCalls_not_onBoundaries (hch : ch.msize = msize) (hfs : ∀ f ∈ fs, WellFormed msize f)
    (hgs : gs <:+ fs) (hitems : content items = stream gs) (hon : ¬ OnBoundaries fs items)
    (hfuel : items.length < fuel) :
    ∃ a ∈ (readCalls closing fuel ch items).1, ¬ AtFrame fs a.left := by
  induction fuel generalizing ch items gs with
  | zero => cases hfuel
  | succ fuel ih =>
      rcases delivery_cases hitems with ⟨rfl, rfl⟩ | ⟨rest, rfl, hrest⟩ |
        ⟨f, gs', rest, rfl, rfl, hrest⟩ |
        ⟨f, gs', bs, bs', rest, rfl, rfl, hsplit, hbs, hbs', hrest⟩
      · exact absurd trivial hon
      · have hat : AtFrame fs rest := ⟨gs, (List.mem_tails gs fs).mpr hgs, hrest⟩
        have hch' : (ch.fill []).msize = msize := hch
        obtain ⟨a, ha, hnot⟩ := ih hch' hgs hrest (fun h => hon ⟨hat, h⟩)
          (Nat.lt_of_succ_lt_succ hfuel)
        exact ⟨a, List.mem_cons_of_mem _ ha, hnot⟩
      · have hf : WellFormed ch.msize f := hch ▸ hfs f (hgs.subset List.mem_cons_self)
        have hcall := readFcallFrom_frame hf rest
        have hlen := length_behind_frame hfuel
        have hch' : (ch.fill f.encode).msize = msize := hch
        obtain ⟨a, ha, hnot⟩ := ih hch' ((List.suffix_cons f gs').trans hgs) hrest
          (fun h => hon ((onBoundaries_bytes fs _ rest).mpr h)) hlen
        rw [readCalls, hcall]
        exact ⟨a, List.mem_cons_of_mem _ ha, hnot⟩
      · have hf : WellFormed ch.msize f := hch ▸ hfs f (hgs.subset List.mem_cons_self)
        have hlt : bs.length < (sendmsg f.encode).length := by
          rw [hsplit, List.length_append]
          exact Nat.lt_add_of_pos_right (List.length_pos_iff.mpr hbs')
        obtain ⟨ch', hcall, -⟩ := readFcallFrom_cut hf ⟨bs', hsplit.symm⟩ hlt rest
        have hlen : 0 < fuel := by
          rw [List.length_append, List.length_map, List.length_cons] at hfuel
          omega
        obtain ⟨a, ha, hleft⟩ := readCalls_head closing ch' rest hlen
        rw [readCalls, hcall]
        refine ⟨a, List.mem_cons_of_mem _ ha, ?_⟩
        rw [hleft]
        exact not_atFrame hgs hsplit hbs hbs' hrest

/-- What a call leaves is less than what there was, if there was anything. -/
theorem readmsgFrom_length (len : Nat) (h : items ≠ []) :
    (readmsgFrom len items).2.2.length < items.length := by
  have hle : ∀ {short : Err} {n : Nat} {items rest : List Item} {q : Bytes} {e : Option ReadErr},
      takeFrom short n items = (q, e, rest) → rest.length ≤ items.length := by
    intro short n items rest q e heq
    cases heq
    exact gather_length_le n items
  have hhead : (readFullFrom 4 items).2.2.length < items.length := gather_length_lt 3 h
  rw [readmsgFrom]
  generalize readFullFrom 4 items = head at hhead
  obtain ⟨header, _ | e, rest⟩ := head
  · dsimp only at hhead ⊢
    split
    · split
      · exact hhead
      · split
        · rename_i hbody
          exact (hle hbody).trans_lt hhead
        · rename_i hbody
          exact (hle hbody).trans_lt hhead
    · split
      · rename_i hbody
        exact (hle hbody).trans_lt hhead
      · rename_i hbody
        split
        · rename_i hdrop
          exact ((hle hdrop).trans (hle hbody)).trans_lt hhead
        · rename_i hdrop
          exact ((hle hdrop).trans (hle hbody)).trans_lt hhead
  · exact hhead

/-- The loop ends, and not for lack of fuel. -/
theorem readCalls_ends (ch : Channel) (hfuel : items.length < fuel) :
    ∃ fault, (readCalls closing fuel ch items).2 = some fault := by
  induction fuel generalizing ch items with
  | zero => cases hfuel
  | succ fuel ih =>
      have hrest : items ≠ [] → (ch.readFcallFrom items).2.2.length < fuel := by
        intro hne
        have hlt := readmsgFrom_length ch.rdbuf.length hne
        have heq : (ch.readFcallFrom items).2.2 = (readmsgFrom ch.rdbuf.length items).2.2 := by
          rw [Channel.readFcallFrom]
          split
          rename_i count q rest hmsg
          cases count <;> rw [hmsg]
        rw [heq]
        omega
      rw [readCalls]
      split
      · exact ⟨_, rfl⟩
      · rename_i ch' rest hcall
        rw [hcall] at hrest
        refine ih ch' (hrest ?_)
        rintro rfl
        cases hcall
      · rename_i f ch' rest hcall
        rw [hcall] at hrest
        refine ih ch' (hrest ?_)
        rintro rfl
        cases hcall

theorem readLoop_ends (ch : Channel) (items : List Item) :
    ∃ fault, (readLoop closing ch items).2 = some fault :=
  readCalls_ends closing ch (Nat.lt_succ_self _)

theorem inSync_iff (hfs : ∀ f ∈ fs, WellFormed ch.msize f)
    (hitems : content items = stream fs) :
    InSync fs (passedOn (readLoop closing ch ((stream fs).map .byte)).1)
        (readLoop closing ch items).1 ↔
      OnBoundaries fs items := by
  constructor
  · intro hsync
    by_contra hon
    obtain ⟨a, ha, hnot⟩ := readCalls_not_onBoundaries closing rfl hfs (List.suffix_refl fs)
      hitems hon (Nat.lt_succ_self _)
    exact hnot (hsync.starts a ha)
  · intro hon
    have hon' : OnBoundaries fs ((stream fs).map .byte) := by
      have h := (onBoundaries_bytes fs (stream fs) []).mpr trivial
      rwa [List.append_nil] at h
    obtain ⟨hpassed, hstarts⟩ := readCalls_onBoundaries closing rfl hfs (List.suffix_refl fs)
      hitems hon (Nat.lt_succ_self _)
    obtain ⟨hpassed', -⟩ := readCalls_onBoundaries closing rfl hfs (List.suffix_refl fs)
      (content_map_byte (stream fs)) hon' (Nat.lt_succ_self _)
    exact ⟨(hpassed.trans hpassed'.symm) ▸ List.prefix_rfl, hstarts⟩

end Loop

/-- Both loops stay in step with the frames exactly if every timeout falls
between two of them. -/
theorem readLoop_inSync_iff (ch : Channel) (fs : List Fcall)
    (hfs : ∀ f ∈ fs, WellFormed ch.msize f) (items : List Item)
    (hitems : content items = stream fs) :
    (InSync fs (passedOn (connRead ch ((stream fs).map .byte)).1) (connRead ch items).1 ↔
      OnBoundaries fs items) ∧
    (InSync fs (passedOn (transportRead ch ((stream fs).map .byte)).1) (transportRead ch items).1 ↔
      OnBoundaries fs items) :=
  ⟨inSync_iff _ hfs hitems, inSync_iff _ hfs hitems⟩

/-- Two `Tclunk`s with a timeout between them. -/
theorem readLoop_inSync_iff_tclunks :
    let ch := newChannel 64
    let fs := [newFcall 1 (.tclunk 3), newFcall 2 (.tclunk 4)]
    let items := (stream (fs.take 1)).map Item.byte ++ .timeout :: (stream (fs.drop 1)).map .byte
    InSync fs (passedOn (connRead ch ((stream fs).map .byte)).1) (connRead ch items).1 ∧
      InSync fs (passedOn (transportRead ch ((stream fs).map .byte)).1)
        (transportRead ch items).1 := by
  intro ch fs items
  have hfs : ∀ f ∈ fs, WellFormed ch.msize f := by
    intro f hf
    rcases List.mem_pair.mp hf with rfl | rfl
    · exact ⟨⟨_, rfl, rfl, by decide⟩, by decide, by decide⟩
    · exact ⟨⟨_, rfl, rfl, by decide⟩, by decide, by decide⟩
  have hiff := readLoop_inSync_iff ch fs hfs items (by decide)
  have hon : OnBoundaries fs items := by decide
  exact ⟨hiff.1.mpr hon, hiff.2.mpr hon⟩

/-- The data of a `Twrite` is the frame of a `Tclunk`, and the timeout comes
just before it. -/
theorem twrite_as_tclunk :
    let ch := newChannel 64
    let tclunk := newFcall 2 (.tclunk 3)
    let twrite := newFcall 1 (.twrite 4 0 (sendmsg tclunk.encode))
    let frame := stream [twrite]
    let items := (frame.take 23).map Item.byte ++ .timeout :: (frame.drop 23).map .byte
    WellFormed ch.msize twrite ∧ content items = frame ∧
      passedOn (connRead ch (frame.map .byte)).1 = [twrite] ∧
      passedOn (connRead ch items).1 = [tclunk] ∧
      passedOn (transportRead ch items).1 = [tclunk] ∧
      ¬ InSync [twrite] [twrite] (connRead ch items).1 ∧
      ¬ InSync [twrite] [twrite] (transportRead ch items).1 := by
  intro ch tclunk twrite frame items
  have hread : passedOn (connRead ch items).1 = [tclunk] := by decide +kernel
  have hread' : passedOn (transportRead ch items).1 = [tclunk] := by decide +kernel
  have hnot : ¬ [tclunk] <+: [twrite] := by decide
  refine ⟨⟨⟨_, rfl, rfl, by decide⟩, by decide, by decide⟩, by decide, by decide +kernel, hread,
    hread', fun h => hnot (hread ▸ h.passed), fun h => hnot (hread' ▸ h.passed)⟩

end P9p
