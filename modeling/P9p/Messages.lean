/-
# `P9p.Messages` — the 27 message kinds and the Fcall that carries them

`messages.go` and `fcall.go`.  Each Go message struct is a constructor of
`Message` with the struct's fields in declaration order, which is the order
they have on the wire.  `Terror` has a number but no struct.
-/
import P9p.Types

namespace P9p

inductive Message where
  | tversion (msize : UInt32) (version : Bytes)
  | rversion (msize : UInt32) (version : Bytes)
  | tauth (afid : Fid) (uname aname : Bytes)
  | rauth (qid : Qid)
  | tattach (fid afid : Fid) (uname aname : Bytes)
  | rattach (qid : Qid)
  | rerror (ename : Bytes)
  | tflush (oldtag : Tag)
  | rflush
  | twalk (fid newfid : Fid) (wnames : List Bytes)
  | rwalk (qids : List Qid)
  | topen (fid : Fid) (mode : Flag)
  | ropen (qid : Qid) (iounit : UInt32)
  | tcreate (fid : Fid) (name : Bytes) (perm : UInt32) (mode : Flag)
  | rcreate (qid : Qid) (iounit : UInt32)
  | tread (fid : Fid) (offset : UInt64) (count : UInt32)
  | rread (data : Bytes)
  | twrite (fid : Fid) (offset : UInt64) (data : Bytes)
  | rwrite (count : UInt32)
  | tclunk (fid : Fid)
  | rclunk
  | tremove (fid : Fid)
  | rremove
  | tstat (fid : Fid)
  | rstat (stat : Dir)
  | twstat (fid : Fid) (stat : Dir)
  | rwstat
  deriving DecidableEq, Repr

namespace Message

/-- The method `Type` of each message struct. -/
def type : Message → FcallType
  | tversion .. => 100
  | rversion .. => 101
  | tauth .. => 102
  | rauth .. => 103
  | tattach .. => 104
  | rattach .. => 105
  | rerror .. => 107
  | tflush .. => 108
  | rflush => 109
  | twalk .. => 110
  | rwalk .. => 111
  | topen .. => 112
  | ropen .. => 113
  | tcreate .. => 114
  | rcreate .. => 115
  | tread .. => 116
  | rread .. => 117
  | twrite .. => 118
  | rwrite .. => 119
  | tclunk .. => 120
  | rclunk => 121
  | tremove .. => 122
  | rremove => 123
  | tstat .. => 124
  | rstat .. => 125
  | twstat .. => 126
  | rwstat => 127

end Message

/-- The zero message of a type number; 106 is `Terror`, which no message
struct implements. -/
def newMessage (typ : FcallType) : Except Err Message :=
  match typ with
  | 100 => .ok (.tversion 0 [])
  | 101 => .ok (.rversion 0 [])
  | 102 => .ok (.tauth 0 [] [])
  | 103 => .ok (.rauth default)
  | 104 => .ok (.tattach 0 0 [] [])
  | 105 => .ok (.rattach default)
  | 107 => .ok (.rerror [])
  | 108 => .ok (.tflush 0)
  | 109 => .ok .rflush
  | 110 => .ok (.twalk 0 0 [])
  | 111 => .ok (.rwalk [])
  | 112 => .ok (.topen 0 0)
  | 113 => .ok (.ropen default 0)
  | 114 => .ok (.tcreate 0 [] 0 0)
  | 115 => .ok (.rcreate default 0)
  | 116 => .ok (.tread 0 0 0)
  | 117 => .ok (.rread [])
  | 118 => .ok (.twrite 0 0 [])
  | 119 => .ok (.rwrite 0)
  | 120 => .ok (.tclunk 0)
  | 121 => .ok .rclunk
  | 122 => .ok (.tremove 0)
  | 123 => .ok .rremove
  | 124 => .ok (.tstat 0)
  | 125 => .ok (.rstat Dir.zero)
  | 126 => .ok (.twstat 0 Dir.zero)
  | 127 => .ok .rwstat
  | _ => .error (.other (lit "unknown message type"))

/-- A value of Go's interface type `Message`: nil, a message struct, or a
pointer to one. -/
inductive MessageVal where
  | nil
  | value (m : Message)
  | pointer (m : Message)
  deriving DecidableEq, Repr

structure Fcall where
  type : FcallType
  tag : Tag
  message : MessageVal
  deriving DecidableEq, Repr

/-- `Fcall{}`. -/
def Fcall.zero : Fcall := ⟨0, 0, .nil⟩

def newFcall (tag : Tag) (msg : Message) : Fcall := ⟨msg.type, tag, .value msg⟩

/-- Every error becomes an `Rerror`: a `MessageRerror` as it is, any other
error by its text. -/
def newErrorFcall (tag : Tag) (err : Err) : Fcall :=
  match err with
  | .rerror ename => ⟨107, tag, .value (.rerror ename)⟩
  | e => ⟨107, tag, .value (.rerror e.error)⟩

@[simp] theorem newErrorFcall_tag (tag : Tag) (err : Err) :
    (newErrorFcall tag err).tag = tag := by
  cases err <;> rfl

end P9p
