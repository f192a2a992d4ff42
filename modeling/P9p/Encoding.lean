/-
# `P9p.Encoding` — the 9P2000 codec

`encoding.go`: the three type switches `encoder.encode`, `decoder.decode` and
`size9p`, and `fields9p`, the reflection that drives them over message
structs.

**Layers.**  The switches call themselves on the parts of a value.  The parts
are always simpler, so the recursion is laid out in layers here:

    Plain     integers, byte slices, strings, times, qids and lists of them
    Elem      a Plain or a Dir, whose fields are Plains
    Message   a struct whose fields are Elems
    Fcall     type, tag and message

`fields9p` becomes `fields` (the values of a struct's fields, in order) and
`setFields` (writing them back through the pointers `fields9p` hands to the
decoder).

**By value or by pointer.**  The encoder treats `v` and `&v` alike, `size9p`
does not: its `*[]byte` case adds a length prefix that the `[]byte` case it
calls adds again.  Sizes therefore carry a flag `byRef`.  Only the fields of a
message held by pointer are ever by reference; `*Dir`, `*Qid` and `*Fcall` are
dereferenced before their fields are taken.

**What the decoder reads from its target.**  `decode` is given the value the
target held before.  It matters in one place: a byte slice of length zero is
not assigned, and the read that follows fills the old slice.

The encoder writes to a `bytes.Buffer`, which accepts everything, and the
only error of `fields9p` is for non-structs, so encoding cannot fail.
-/
import P9p.Lib.Reader
import P9p.Messages

namespace P9p

open Wire Wire.Reader

/-! ## Values and their fields -/

/-- The values both switches treat without reflection.  A constructor stands
for all Go types of its width: `uint8` for `FcallType`, `QType` and `Flag`,
`uint16` for `Tag`, `uint32` for `Fid`. -/
inductive Plain where
  | uint8 (n : UInt8)
  | uint16 (n : UInt16)
  | uint32 (n : UInt32)
  | uint64 (n : UInt64)
  | bytes (b : Bytes)
  | string (s : Bytes)
  | strings (ss : List Bytes)
  | time (t : Time)
  | qid (q : Qid)
  | qids (qs : List Qid)
  deriving DecidableEq, Repr

inductive Elem where
  | plain (p : Plain)
  | dir (d : Dir)
  deriving DecidableEq, Repr

def Dir.fields (d : Dir) : List Plain :=
  [.uint16 d.type, .uint32 d.dev, .qid d.qid, .uint32 d.mode, .time d.accessTime,
   .time d.modTime, .uint64 d.length, .string d.name, .string d.uid, .string d.gid,
   .string d.muid]

/-- Field values of other types than the struct's cannot come from the
decoder; they leave the struct alone. -/
def Dir.setFields (d : Dir) : List Plain → Dir
  | [.uint16 type, .uint32 dev, .qid qid, .uint32 mode, .time accessTime, .time modTime,
     .uint64 length, .string name, .string uid, .string gid, .string muid] =>
      ⟨type, dev, qid, mode, accessTime, modTime, length, name, uid, gid, muid⟩
  | _ => d

namespace Message

open Plain Elem

def fields : Message → List Elem
  | tversion msize version => [plain (uint32 msize), plain (string version)]
  | rversion msize version => [plain (uint32 msize), plain (string version)]
  | tauth afid uname aname => [plain (uint32 afid), plain (string uname), plain (string aname)]
  | rauth q => [plain (qid q)]
  | tattach fid afid uname aname =>
      [plain (uint32 fid), plain (uint32 afid), plain (string uname), plain (string aname)]
  | rattach q => [plain (qid q)]
  | rerror ename => [plain (string ename)]
  | tflush oldtag => [plain (uint16 oldtag)]
  | rflush => []
  | twalk fid newfid wnames =>
      [plain (uint32 fid), plain (uint32 newfid), plain (strings wnames)]
  | rwalk qs => [plain (qids qs)]
  | topen fid mode => [plain (uint32 fid), plain (uint8 mode)]
  | ropen q iounit => [plain (qid q), plain (uint32 iounit)]
  | tcreate fid name perm mode =>
      [plain (uint32 fid), plain (string name), plain (uint32 perm), plain (uint8 mode)]
  | rcreate q iounit => [plain (qid q), plain (uint32 iounit)]
  | tread fid offset count => [plain (uint32 fid), plain (uint64 offset), plain (uint32 count)]
  | rread data => [plain (bytes data)]
  | twrite fid offset data => [plain (uint32 fid), plain (uint64 offset), plain (bytes data)]
  | rwrite count => [plain (uint32 count)]
  | tclunk fid => [plain (uint32 fid)]
  | rclunk => []
  | tremove fid => [plain (uint32 fid)]
  | rremove => []
  | tstat fid => [plain (uint32 fid)]
  | rstat stat => [dir stat]
  | twstat fid stat => [plain (uint32 fid), dir stat]
  | rwstat => []

def setFields (m : Message) (es : List Elem) : Message :=
  match m, es with
  | tversion .., [plain (uint32 msize), plain (string version)] => tversion msize version
  | rversion .., [plain (uint32 msize), plain (string version)] => rversion msize version
  | tauth .., [plain (uint32 afid), plain (string uname), plain (string aname)] =>
      tauth afid uname aname
  | rauth .., [plain (qid q)] => rauth q
  | tattach .., [plain (uint32 fid), plain (uint32 afid), plain (string uname),
      plain (string aname)] => tattach fid afid uname aname
  | rattach .., [plain (qid q)] => rattach q
  | rerror .., [plain (string ename)] => rerror ename
  | tflush .., [plain (uint16 oldtag)] => tflush oldtag
  | twalk .., [plain (uint32 fid), plain (uint32 newfid), plain (strings wnames)] =>
      twalk fid newfid wnames
  | rwalk .., [plain (qids qs)] => rwalk qs
  | topen .., [plain (uint32 fid), plain (uint8 mode)] => topen fid mode
  | ropen .., [plain (qid q), plain (uint32 iounit)] => ropen q iounit
  | tcreate .., [plain (uint32 fid), plain (string name), plain (uint32 perm),
      plain (uint8 mode)] => tcreate fid name perm mode
  | rcreate .., [plain (qid q), plain (uint32 iounit)] => rcreate q iounit
  | tread .., [plain (uint32 fid), plain (uint64 offset), plain (uint32 count)] =>
      tread fid offset count
  | rread .., [plain (bytes data)] => rread data
  | twrite .., [plain (uint32 fid), plain (uint64 offset), plain (bytes data)] =>
      twrite fid offset data
  | rwrite .., [plain (uint32 count)] => rwrite count
  | tclunk .., [plain (uint32 fid)] => tclunk fid
  | tremove .., [plain (uint32 fid)] => tremove fid
  | tstat .., [plain (uint32 fid)] => tstat fid
  | rstat .., [dir stat] => rstat stat
  | twstat .., [plain (uint32 fid), dir stat] => twstat fid stat
  | m, _ => m

end Message

/-! ## `size9p`

The accumulator `s` is a `uint32` and wraps. -/

def Qid.size : UInt32 := 1 + 4 + 8

def Plain.size (byRef : Bool) : Plain → UInt32
  | .uint8 _ => 1
  | .uint16 _ => 2
  | .uint32 _ => 4
  | .uint64 _ => 8
  | .bytes b =>
      if byRef then 4 + UInt32.ofNat (4 + b.length) else UInt32.ofNat (4 + b.length)
  | .string s => UInt32.ofNat (2 + s.length)
  | .strings ss => ss.foldl (fun s sv => s + UInt32.ofNat (2 + sv.length)) 2
  | .time _ => 4
  | .qid _ => Qid.size
  | .qids qs => qs.foldl (fun s _ => s + Qid.size) 2

/-- `size9p(elements...)` for the fields of a `Dir`. -/
def Dir.fieldsSize (d : Dir) : UInt32 :=
  d.fields.foldl (fun s (p : Plain) => s + p.size false) 0

def Dir.size (d : Dir) : UInt32 := d.fieldsSize + 2

def Elem.size (byRef : Bool) : Elem → UInt32
  | .plain p => p.size byRef
  | .dir d => d.size

/-- `size9p(elements...)` for the fields of a message. -/
def size9p (byRef : Bool) (es : List Elem) : UInt32 :=
  es.foldl (fun s e => s + e.size byRef) 0

def Message.size (byRef : Bool) : Message → UInt32
  | m@(.rstat _) => 2 + size9p byRef m.fields
  | m@(.twstat _ _) => 2 + size9p byRef m.fields
  | m => size9p byRef m.fields

def MessageVal.size : MessageVal → UInt32
  | .nil => 0
  | .value m => m.size false
  | .pointer m => m.size true

def Fcall.size (f : Fcall) : UInt32 := 1 + 2 + f.message.size

/-! ## `encoder.encode` -/

def putUint16 (n : UInt16) : Bytes := toLE 2 n.toNat
def putUint32 (n : UInt32) : Bytes := toLE 4 n.toNat
def putUint64 (n : UInt64) : Bytes := toLE 8 n.toNat

def encodeString (s : Bytes) : Bytes := putUint16 (UInt16.ofNat s.length) ++ s

def Qid.encode (q : Qid) : Bytes := [q.type] ++ putUint32 q.version ++ putUint64 q.path

def Plain.encode : Plain → Bytes
  | .uint8 n => [n]
  | .uint16 n => putUint16 n
  | .uint32 n => putUint32 n
  | .uint64 n => putUint64 n
  | .bytes b => putUint32 (UInt32.ofNat b.length) ++ b
  | .string s => encodeString s
  | .strings ss => putUint16 (UInt16.ofNat ss.length) ++ ss.flatMap encodeString
  | .time t => putUint32 (UInt32.ofInt t.unix)
  | .qid q => q.encode
  | .qids qs => putUint16 (UInt16.ofNat qs.length) ++ qs.flatMap Qid.encode

/-- The record of a `Dir` without its size prefix. -/
def Dir.body (d : Dir) : Bytes := d.fields.flatMap Plain.encode

def Dir.encode (d : Dir) : Bytes := putUint16 d.fieldsSize.toUInt16 ++ d.body

def Elem.encode : Elem → Bytes
  | .plain p => p.encode
  | .dir d => d.encode

/-- `Rstat` and `Twstat` carry a second size, of the `Dir` with its own size
prefix, right before the `Dir`. -/
def Message.encode (byRef : Bool) : Message → Bytes
  | m@(.rstat _) =>
      putUint16 (size9p byRef m.fields).toUInt16 ++ m.fields.flatMap Elem.encode
  | m@(.twstat _ _) =>
      (m.fields.take 1).flatMap Elem.encode ++
        putUint16 (size9p byRef (m.fields.drop 1)).toUInt16 ++
        (m.fields.drop 1).flatMap Elem.encode
  | m => m.fields.flatMap Elem.encode

def MessageVal.encode : MessageVal → Bytes
  | .nil => []
  | .value m => m.encode false
  | .pointer m => m.encode true

def Fcall.encode (f : Fcall) : Bytes := [f.type] ++ putUint16 f.tag ++ f.message.encode

/-- `codec9p.Marshal` on an Fcall. -/
def marshal (f : Fcall) : Except Err Bytes := .ok f.encode

/-! ## `decoder.decode` -/

abbrev Decoder := Reader Err

/-- `io.ReadFull`. -/
def readFull (n : Nat) : Decoder Bytes := Reader.take .eof .unexpectedEOF n

def getUint8 : Decoder UInt8 := do return UInt8.ofNat (ofLE (← readFull 1))
def getUint16 : Decoder UInt16 := do return UInt16.ofNat (ofLE (← readFull 2))
def getUint32 : Decoder UInt32 := do return UInt32.ofNat (ofLE (← readFull 4))
def getUint64 : Decoder UInt64 := do return UInt64.ofNat (ofLE (← readFull 8))

def decodeString : Decoder Bytes := do
  let ll ← getUint16
  readFull ll.toNat

def decodeQid : Decoder Qid := do
  let type ← getUint8
  let version ← getUint32
  let path ← getUint64
  return ⟨type, version, path⟩

/-- The slice a `*[]byte` target is left with before its bytes are read:
allocated for a positive length, the old one for length zero. -/
def sliceFor (ll : UInt32) (old : Bytes) : Bytes :=
  if ll > 0 then List.replicate ll.toNat 0 else old

/-- Decoding into a target that holds `p`. -/
def Plain.decode (p : Plain) : Decoder Plain :=
  match p with
  | .uint8 _ => do return .uint8 (← getUint8)
  | .uint16 _ => do return .uint16 (← getUint16)
  | .uint32 _ => do return .uint32 (← getUint32)
  | .uint64 _ => do return .uint64 (← getUint64)
  | .bytes old => do
      let ll ← getUint32
      return .bytes (← readFull (sliceFor ll old).length)
  | .string _ => do return .string (← decodeString)
  | .strings _ => do
      let ll ← getUint16
      return .strings (← (List.replicate ll.toNat ()).mapM fun _ => decodeString)
  | .time _ => do
      let epoch ← getUint32
      return .time ⟨epoch.toNat, 0⟩
  | .qid _ => do return .qid (← decodeQid)
  | .qids _ => do
      let ll ← getUint16
      return .qids (← (List.replicate ll.toNat ()).mapM fun _ => decodeQid)

/-- A `Dir` is read whole, then decoded on its own; bytes its fields do not
use are dropped. -/
def Dir.decode (d : Dir) : Decoder Dir := do
  let ll ← getUint16
  let b ← readFull ll.toNat
  let fs ← (d.fields.mapM Plain.decode : Decoder (List Plain)).within b
  return d.setFields fs

def Elem.decode (e : Elem) : Decoder Elem :=
  match e with
  | .plain p => do return .plain (← p.decode)
  | .dir d => do return .dir (← d.decode)

/-- The extra size of `Rstat` and `Twstat` is read and ignored. -/
def Message.decode (m : Message) : Decoder Message :=
  match m with
  | .rstat _ => do
      let _ll ← getUint16
      return m.setFields (← m.fields.mapM Elem.decode)
  | .twstat _ _ => do
      let fid ← (m.fields.take 1).mapM Elem.decode
      let _ll ← getUint16
      return m.setFields (fid ++ (← (m.fields.drop 1).mapM Elem.decode))
  | m => do return m.setFields (← m.fields.mapM Elem.decode)

def decodeFcall : Decoder Fcall := do
  let type ← getUint8
  let tag ← getUint16
  match newMessage type with
  | .error err => Reader.fail err
  | .ok message => do
      let m ← message.decode
      return ⟨type, tag, .value m⟩

/-- `codec9p.Unmarshal` into an Fcall, which ignores the bytes it does not
need. -/
def unmarshal (data : Bytes) : Except Err Fcall :=
  match decodeFcall data with
  | .ok (f, _) => .ok f
  | .error err => .error err

end P9p
