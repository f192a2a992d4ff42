/-
# `P9p.Channel` — frames on a connection

`channel.go`: a frame is a 4-byte size, counting itself, and a body.
`sendmsg` writes one, `readmsg` reads one into the channel's buffer, and
`ReadFcall`/`WriteFcall` put the codec and the message-size limit on top.

The connection is a byte string that ends in EOF.  Deadlines and the initial
`select` on the context appear as one optional error with which a call gives
up before it touches the connection.

A slice expression out of bounds panics in Go.  `readmsg` has one whose bound
comes from the wire, so a call can end in a `Fault` that is not an error.
-/
import P9p.Encoding

namespace P9p

open Wire Wire.Reader

/-- How a call that does not return a value ends. -/
inductive Fault where
  | err (e : Err)
  | panic
  deriving DecidableEq, Repr

/-- A decoder as part of a function that can panic. -/
def Decoder.lift {α : Type} (r : Decoder α) : Reader Fault α := fun b =>
  match r b with
  | .ok p => .ok p
  | .error e => .error (.err e)

/-- `io.CopyN` into `ioutil.Discard`: it reports EOF however much it got. -/
def discard (n : Nat) : Decoder Bytes := Reader.take .eof .eof n

/-! ## Framing -/

def channelMessageHeaderSize : Nat := 4

/-- The bytes `sendmsg` writes for the body `p`. -/
def sendmsg (p : Bytes) : Bytes := putUint32 (UInt32.ofNat (p.length + 4)) ++ p

/-- `readmsg(rd, p)` with a buffer `p` of `len` bytes: the count it returns
and the bytes it stores at the start of the buffer.  The count includes the
header, the stored bytes do not. -/
def readmsg (len : Nat) : Reader Fault (Nat × Bytes) := do
  let msize ← Decoder.lift getUint32
  let mbody : Int := (msize.toNat : Int) - 4
  if mbody < len then
    -- `p = p[:mbody]`
    if mbody < 0 then
      Reader.fail .panic
    else do
      let q ← Decoder.lift (readFull mbody.toNat)
      return (4 + mbody.toNat, q)
  else do
    let q ← Decoder.lift (readFull len)
    let rest ← Decoder.lift (discard (mbody.toNat - len))
    return (4 + len + rest.length, q)

/-- The buffer `p` after `q` was copied to its start. -/
def overwrite (p q : Bytes) : Bytes := q.take p.length ++ p.drop q.length

@[simp] theorem overwrite_length (p q : Bytes) : (overwrite p q).length = p.length := by
  simp only [overwrite, List.length_append, List.length_take, List.length_drop]
  omega

/-! ## The channel -/

/-- The part of a channel that reads and writes depend on.  `newChannel` and
`SetMSize` keep the buffer at the message size. -/
structure Channel where
  msize : Nat
  rdbuf : Bytes
  rdbuf_length : rdbuf.length = msize

def newChannel (msize : Nat) : Channel := ⟨msize, List.replicate msize 0, by simp⟩

def Channel.setMSize (ch : Channel) (msize : Nat) : Channel :=
  if h : msize < ch.rdbuf.length then
    ⟨msize, ch.rdbuf.take msize, by rw [List.length_take]; omega⟩
  else newChannel msize

/-- The channel after a body `q` was read into its buffer. -/
def Channel.fill (ch : Channel) (q : Bytes) : Channel :=
  ⟨ch.msize, overwrite ch.rdbuf q, by rw [overwrite_length, ch.rdbuf_length]⟩

/-- The on-wire size of an Fcall, header included. -/
def msgmsize (f : Fcall) : Nat := channelMessageHeaderSize + f.size.toNat

/-- `maybeTruncate`: shrink a `Tread` or a `Twrite` held by value, refuse
anything else that does not fit.  The count of a `Tread` is rewritten in
32-bit arithmetic. -/
def maybeTruncate (msize : Nat) (f : Fcall) : Except Err Fcall :=
  match f.message with
  | .value (.tread fid offset count) =>
      let resp := newFcall f.tag (.rread [])
      let overflow := UInt32.ofNat (msgmsize resp) + count - UInt32.ofNat msize
      if count < overflow then .ok f
      else .ok { f with message := .value (.tread fid offset (count - overflow)) }
  | .value (.twrite fid offset data) =>
      let size := msgmsize f
      if size ≤ msize then .ok f
      else
        let overflow := size - msize
        if data.length < overflow then .error (.overflow overflow)
        else .ok { f with
          message := .value (.twrite fid offset (data.take (data.length - overflow))) }
  | _ =>
      let size := msgmsize f
      if size > msize then .error (.overflow (size - msize)) else .ok f

/-- `ReadFcall` up to its truncation step: the Fcall decoded from the buffer,
and the channel with its new buffer contents.  `stop` is the error of the
initial `select`, if it takes one of its branches. -/
def Channel.receive (ch : Channel) (stop : Option Err) : Reader Fault (Fcall × Channel) :=
  match stop with
  | some e => Reader.fail (.err e)
  | none => do
      let (n, q) ← readmsg ch.rdbuf.length
      let ch := ch.fill q
      if n > ch.rdbuf.length then
        Reader.fail (.err (.overflow (n - ch.rdbuf.length)))
      else
        match unmarshal (ch.rdbuf.take n) with
        | .error e => Reader.fail (.err e)
        | .ok f => return (f, ch)

def Channel.readFcall (ch : Channel) (stop : Option Err) : Reader Fault (Fcall × Channel) := do
  let (f, ch) ← ch.receive stop
  match maybeTruncate ch.msize f with
  | .error e => Reader.fail (.err e)
  | .ok f => return (f, ch)

/-- `WriteFcall` on a connection that accepts all bytes: what it puts on the
wire. -/
def Channel.writeFcall (ch : Channel) (stop : Option Err) (f : Fcall) : Except Err Bytes :=
  match stop with
  | some e => .error e
  | none =>
      match maybeTruncate ch.msize f with
      | .error e => .error e
      | .ok f =>
          match marshal f with
          | .error e => .error e
          | .ok p => .ok (sendmsg p)

end P9p
