/-
# `P9p.Handler` — from messages to the methods of a session

`ssesssion.go`: `Handle` calls the method of the `Session` that a message
stands for and makes a message of what it returns.  The session is a parameter,
any implementation of the interface, whose state is passed along.

`Handle` reads into a buffer that it allocates: as long as the count of the
`Tread`, but at most the msize of the session less the 11 bytes of a `Rread`
without data.  The channel has an msize of its own, to which `ReadFcall` has
lowered the count before.  So whatever the session reads, the reply fits into
the channel (`rread_fits`), also if its msize is not the one of the session.
-/
import P9p.Channel.Fit

namespace P9p

open Wire Wire.Reader

variable {α β : Type} {fid : Fid}

/-! ## The model -/

/-- What a method of a session does to its state, and the value it returns if
it returns no error. -/
abbrev Method (σ α : Type) := σ → Except Err α × σ

/-- The `Session` interface, without `Version` and `Stop`.  `Read` returns its
count and the contents of the buffer it was given. -/
structure SessionOps (σ : Type) where
  auth (afid : Fid) (uname aname : Bytes) : Method σ Qid
  attach (fid afid : Fid) (uname aname : Bytes) : Method σ Qid
  clunk (fid : Fid) : Method σ Unit
  remove (fid : Fid) : Method σ Unit
  walk (fid newfid : Fid) (names : List Bytes) : Method σ (List Qid)
  read (fid : Fid) (p : Bytes) (offset : Int64) :
    Method σ (Int × { q : Bytes // q.length = p.length })
  write (fid : Fid) (p : Bytes) (offset : Int64) : Method σ Int
  «open» (fid : Fid) (mode : Flag) : Method σ (Qid × UInt32)
  create (parent : Fid) (name : Bytes) (perm : UInt32) (mode : Flag) : Method σ (Qid × UInt32)
  stat (fid : Fid) : Method σ Dir
  wstat (fid : Fid) (dir : Dir) : Method σ Unit

/-- A call that can also panic. -/
abbrev Handling (σ α : Type) := ExceptT Fault (StateM σ) α

variable {σ : Type}

def Method.call {α : Type} (method : Method σ α) : Handling σ α := fun s =>
  match method s with
  | (.ok a, s') => (.ok a, s')
  | (.error err, s') => (.error (.err err), s')

theorem Handling.bind_ok {x : Handling σ α} {s s' : σ} {a : α} (h : x s = (.ok a, s'))
    (f : α → Handling σ β) : (x >>= f) s = f a s' := by
  simp only [bind, ExceptT.bind, ExceptT.mk, StateT.bind, h]
  rfl

theorem Handling.bind_error {x : Handling σ α} {s s' : σ} {f : Fault} (h : x s = (.error f, s'))
    (k : α → Handling σ β) : (x >>= k) s = (.error f, s') := by
  simp only [bind, ExceptT.bind, ExceptT.mk, StateT.bind, h]
  rfl

theorem Handling.bind_eq_ok {x : Handling σ α} {f : α → Handling σ β} {s s' : σ} {b : β}
    (h : (x >>= f) s = (.ok b, s')) : ∃ a s₁, x s = (.ok a, s₁) ∧ f a s₁ = (.ok b, s') := by
  simp only [bind, ExceptT.bind, ExceptT.mk, StateT.bind] at h
  generalize x s = y at h ⊢
  obtain ⟨r, s₁⟩ := y
  cases r with
  | error e => cases h
  | ok a => exact ⟨a, s₁, rfl, h⟩

/-- `p[:n]`. -/
def sliceTo (p : Bytes) (n : Int) : Handling σ Bytes :=
  if 0 ≤ n ∧ n ≤ p.length then return p.take n.toNat else throw .panic

def Err.unknownMsg : Err := .rerror (lit "unknown message")

/-- The length of the buffer for a `Tread`. -/
def readBuffer (msize : Int) (count : UInt32) : Nat :=
  let count : Int := count.toNat
  if count > msize - 11 then
    let count := msize - 11
    if count < 0 then 0 else count.toNat
  else count.toNat

/-- `sessionHandler.Handle`; the msize is that of the session. -/
def handle (session : SessionOps σ) (msize : Int) : MessageVal → Handling σ Message
  | .value (.tauth afid uname aname) => do
      return .rauth (← (session.auth afid uname aname).call)
  | .value (.tattach fid afid uname aname) => do
      return .rattach (← (session.attach fid afid uname aname).call)
  | .value (.twalk fid newfid wnames) => do
      return .rwalk (← (session.walk fid newfid wnames).call)
  | .value (.topen fid mode) => do
      let (qid, iounit) ← (session.open fid mode).call
      return .ropen qid iounit
  | .value (.tcreate fid name perm mode) => do
      let (qid, iounit) ← (session.create fid name perm mode).call
      return .rcreate qid iounit
  | .value (.tread fid offset count) => do
      let p := List.replicate (readBuffer msize count) 0
      let (n, q) ← (session.read fid p offset.toInt64).call
      return .rread (← sliceTo q.val n)
  | .value (.twrite fid offset data) => do
      let n ← (session.write fid data offset.toInt64).call
      return .rwrite (UInt32.ofInt n)
  | .value (.tclunk fid) => do
      (session.clunk fid).call
      return .rclunk
  | .value (.tremove fid) => do
      (session.remove fid).call
      return .rremove
  | .value (.tstat fid) => do
      return .rstat (← (session.stat fid).call)
  | .value (.twstat fid stat) => do
      (session.wstat fid stat).call
      return .rwstat
  | _ => throw (.err .unknownMsg)

/-! ## A `Tread` that is accepted -/

/-- A `Tread` without its header has 19 bytes. -/
theorem decodeFcall_tread_length {b rest : Bytes} {f : Fcall} {offset : UInt64} {count : UInt32}
    (h : decodeFcall b = .ok (f, rest)) (hf : f.message = .value (.tread fid offset count)) :
    19 ≤ b.length := by
  obtain ⟨m, hm, -, hb⟩ := decodeFcall_accepts h
  cases (congrArg Fcall.message hm).symm.trans hf
  have htype : (Message.tread fid offset count).type = 116 := rfl
  rw [hb (htype ▸ by decide) (htype ▸ by decide), List.length_append, hm]
  exact Nat.le_add_right 19 _

/-- On a channel that accepts a `Tread`, the reply fits that has as many bytes
as the `Tread` asks for. -/
theorem accepted_tread_fits {ch ch' : Channel} {stop : Option Err} {b rest : Bytes} {f : Fcall}
    {offset : UInt64} {count : UInt32} (h : ch.readFcall stop b = .ok ((f, ch'), rest))
    (hf : f.message = .value (.tread fid offset count)) :
    ch'.msize = ch.msize ∧ 11 + count.toNat ≤ ch.msize := by
  obtain ⟨f₀, hrecv, htrunc, hmsize⟩ := readFcall_eq_ok h
  obtain ⟨-, n, q, -, hn, hdec, -⟩ := receive_eq_ok hrecv
  obtain ⟨rest', hdec⟩ := unmarshal_eq_ok hdec
  refine ⟨hmsize, ?_⟩
  -- it was a `Tread` before the truncation
  obtain ⟨fid₀, offset₀, count₀, hf₀⟩ : ∃ fid offset count,
      f₀.message = .value (.tread fid offset count) := by
    rcases maybeTruncate_cases htrunc with rfl | ⟨_, _, _, _, hf₀, -⟩ | ⟨_, _, _, _, -, rfl⟩
    · exact ⟨fid, offset, count, hf⟩
    · exact ⟨_, _, _, hf₀⟩
    · cases hf
  have hlen := decodeFcall_tread_length hdec hf₀
  have hmin : 11 ≤ ch.msize := by
    rw [List.length_take] at hlen
    omega
  obtain ⟨count', hok, hcount⟩ := maybeTruncate_tread hf₀ hmin
  cases htrunc.symm.trans hok
  cases hf
  have hmod := Nat.mod_le (ch.msize - 11) (2 ^ 32)
  omega

/-! ## Its reply -/

theorem readBuffer_le (msize : Int) (count : UInt32) : readBuffer msize count ≤ count.toNat := by
  unfold readBuffer
  dsimp only
  split
  · split <;> omega
  · omega

/-- A `Rread` is refused for its data only, and a wrapped size is not larger
than the true one. -/
theorem maybeTruncate_rread {msize : Nat} (tag : Tag) {data : Bytes}
    (h : 11 + data.length ≤ msize) :
    maybeTruncate msize (newFcall tag (.rread data)) = .ok (newFcall tag (.rread data)) := by
  have hsize : msgmsize (newFcall tag (.rread data)) ≤ msize := by
    have hlen : (newFcall tag (.rread data)).encode.length = 7 + data.length := by
      rw [Fcall.encode_length rfl]
      simp only [Message.encode, Message.fields, List.flatMap_cons, List.flatMap_nil, Elem.encode,
        Plain.encode, List.append_nil, List.length_append, putUint32, toLE_length]
      omega
    have hmod := Nat.mod_le (newFcall tag (.rread data)).encode.length (2 ^ 32)
    rw [msgmsize, channelMessageHeaderSize, Fcall.size_toNat rfl]
    omega
  rw [maybeTruncate_rest rfl rfl, if_neg (Nat.not_lt.mpr hsize)]

/-- `Handle` answers a `Tread` with what `Read` has put into the buffer. -/
theorem handle_tread {session : SessionOps σ} {msize : Int} {offset : UInt64} {count : UInt32}
    {s s' : σ} {n : Int}
    {q : { q : Bytes // q.length = (List.replicate (readBuffer msize count) (0 : UInt8)).length }}
    (hread : session.read fid (List.replicate (readBuffer msize count) 0) offset.toInt64 s =
      (.ok (n, q), s')) (hn : 0 ≤ n ∧ n ≤ q.val.length) :
    handle session msize (.value (.tread fid offset count)) s =
      (.ok (.rread (q.val.take n.toNat)), s') := by
  have hcall : (session.read fid (List.replicate (readBuffer msize count) 0)
      offset.toInt64).call s = (.ok (n, q), s') := by
    rw [Method.call, hread]
  have hslice : (sliceTo q.val n : Handling σ Bytes) = pure (q.val.take n.toNat) := if_pos hn
  refine (Handling.bind_ok hcall _).trans ?_
  dsimp only
  rw [hslice]
  rfl

/-- A `Tread` that the channel accepts is answered with a `Rread` that the
channel accepts, whatever the session reads. -/
theorem rread_fits (ch : Channel) (stop : Option Err) (b : Bytes) {f : Fcall} {ch' : Channel}
    {rest : Bytes} {fid : Fid} {offset : UInt64} {count : UInt32}
    (haccept : ch.readFcall stop b = .ok ((f, ch'), rest))
    (hf : f.message = .value (.tread fid offset count)) (session : SessionOps σ)
    (msize : Int) (s : σ)
    (hread : ∀ p, ∃ n q s', session.read fid p offset.toInt64 s = (.ok (n, q), s') ∧
      0 ≤ n ∧ n ≤ p.length) :
    ∃ data s' frame, handle session msize f.message s = (.ok (.rread data), s') ∧
      maybeTruncate ch'.msize (newFcall f.tag (.rread data)) = .ok (newFcall f.tag (.rread data)) ∧
      ch'.writeFcall none (newFcall f.tag (.rread data)) = .ok frame := by
  obtain ⟨hmsize, hfits⟩ := accepted_tread_fits haccept hf
  obtain ⟨n, q, s', hcall, hn⟩ := hread (List.replicate (readBuffer msize count) 0)
  have hq : q.val.length = readBuffer msize count := q.property.trans (List.length_replicate ..)
  have hn' : 0 ≤ n ∧ n ≤ q.val.length := by rwa [q.property]
  have hdata : (q.val.take n.toNat).length ≤ count.toNat := by
    refine (List.length_take_le' ..).trans ?_
    rw [hq]
    exact readBuffer_le msize count
  have hok : maybeTruncate ch'.msize (newFcall f.tag (.rread (q.val.take n.toNat))) = .ok _ :=
    maybeTruncate_rread f.tag (by omega)
  have hwrite : ch'.writeFcall none (newFcall f.tag (.rread (q.val.take n.toNat))) =
      .ok (sendmsg (newFcall f.tag (.rread (q.val.take n.toNat))).encode) := by
    rw [writeFcall_eq, onWire, hok]
    rfl
  refine ⟨_, s', _, ?_, hok, hwrite⟩
  rw [hf]
  exact handle_tread hcall hn'

/-- A session that reads at most five bytes and does nothing else. -/
def shortReads : SessionOps Unit where
  auth _ _ _ s := (.error .perm, s)
  attach _ _ _ _ s := (.error .perm, s)
  clunk _ s := (.error .perm, s)
  remove _ s := (.error .perm, s)
  walk _ _ _ s := (.error .perm, s)
  read _ p _ s := (.ok (min p.length 5, ⟨p, rfl⟩), s)
  write _ _ _ s := (.error .perm, s)
  «open» _ _ s := (.error .perm, s)
  create _ _ _ _ s := (.error .perm, s)
  stat _ s := (.error .perm, s)
  wstat _ _ s := (.error .perm, s)

/-- A count of 100 and an msize of 24 at the channel; the session has a larger
one. -/
theorem rread_fits_shortReads :
    ∃ ch' data s' frame, (newChannel 24).readFcall none
          (sendmsg (newFcall 1 (.tread 2 0 100)).encode) =
        .ok ((newFcall 1 (.tread 2 0 13), ch'), []) ∧
      handle shortReads 8192 (.value (.tread 2 0 13)) () = (.ok (.rread data), s') ∧
      ch'.writeFcall none (newFcall 1 (.rread data)) = .ok frame := by
  obtain ⟨ch', haccept⟩ : ∃ ch', (newChannel 24).readFcall none
      (sendmsg (newFcall 1 (.tread 2 0 100)).encode) =
        .ok ((newFcall 1 (.tread 2 0 13), ch'), []) := ⟨_, rfl⟩
  obtain ⟨data, s', frame, hhandle, -, hwrite⟩ := rread_fits (newChannel 24) none _ haccept rfl
    shortReads 8192 () fun p => ⟨_, _, _, rfl, by omega, by omega⟩
  exact ⟨ch', data, s', frame, haccept, hhandle, hwrite⟩

end P9p
