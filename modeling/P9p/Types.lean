/-
# `P9p.Types` — the values the protocol is about

The Go types of `types.go` and `errors.go`.  Fixed-width integers keep their
width; the named integer types (`Tag`, `Fid`, `Flag`, `QType`, `FcallType`)
are their underlying words, since every word is a legal value of the Go type.

Two representation choices:

* Go strings are byte sequences, not Unicode texts: a peer can put any bytes
  into a name.  They are modelled as byte lists, and so are `[]byte` and the
  nil slice, which no function of the protocol tells from an empty one.
* `time.Time` is an instant, seconds and nanoseconds since the epoch.  The
  location it is displayed in plays no part in the protocol.
-/

import Mathlib.Algebra.Group.Int.Defs

namespace P9p

/-- A Go string or byte slice. -/
abbrev Bytes := List UInt8

/-- An ASCII literal of the source, as the bytes Go stores for it. -/
def lit (s : String) : Bytes := s.toList.map fun c => UInt8.ofNat c.toNat

abbrev FcallType := UInt8
abbrev QType := UInt8
abbrev Flag := UInt8
abbrev Tag := UInt16
abbrev Fid := UInt32

/-- `NOTAG`: the tag of messages sent before a session is established. -/
def noTag : Tag := 0xFFFF

/-- `NOFID`: the lack of a fid. -/
def noFid : Fid := 0xFFFFFFFF

/-! ## Open modes and qid types -/

def oread : Flag := 0x00
def owrite : Flag := 0x01
def ordwr : Flag := 0x02
def oexec : Flag := 0x03

def qtdir : QType := 0x80
def qtauth : QType := 0x08

/-- `DMDIR`: the mode bit of directories. -/
def dmdir : UInt32 := 0x80000000

structure Qid where
  type : QType
  version : UInt32
  path : UInt64
  deriving DecidableEq, Repr, Inhabited

structure Time where
  unix : Int
  nsec : Nat
  deriving DecidableEq, Repr

/-- `time.Time{}`: the first of January of the year one. -/
def Time.zero : Time := ⟨-62135596800, 0⟩

/-- A time the wire format can carry: whole seconds in 32 bits. -/
def Time.OnWire (t : Time) : Prop := t.nsec = 0 ∧ 0 ≤ t.unix ∧ t.unix < 2 ^ 32

instance (t : Time) : Decidable t.OnWire := inferInstanceAs (Decidable (_ ∧ _))

/-- The record of `stat`, `wstat` and directory reads. -/
structure Dir where
  type : UInt16
  dev : UInt32
  qid : Qid
  mode : UInt32
  accessTime : Time
  modTime : Time
  length : UInt64
  name : Bytes
  uid : Bytes
  gid : Bytes
  muid : Bytes
  deriving DecidableEq, Repr

/-- `Dir{}`. -/
def Dir.zero : Dir :=
  ⟨0, 0, ⟨0, 0, 0⟩, 0, Time.zero, Time.zero, 0, [], [], [], []⟩

/-! ## Errors -/

/-- The `error` values the modelled code tells apart: a `MessageRerror`, the
two end-of-input errors of package `io`, an `overflowErr`, and any other
error, known by its text. -/
inductive Err where
  | rerror (ename : Bytes)
  | eof
  | unexpectedEOF
  | overflow (size : Int)
  | other (text : Bytes)
  deriving DecidableEq, Repr

def Err.dupfid : Err := .rerror (lit "duplicate fid")
def Err.duptag : Err := .rerror (lit "duplicate tag")
def Err.noread : Err := .rerror (lit "read prohibited")
def Err.nowrite : Err := .rerror (lit "write prohibited")
def Err.perm : Err := .rerror (lit "permission denied")
def Err.notfound : Err := .rerror (lit "file not found")
def Err.unknownfid : Err := .rerror (lit "unknown fid")
def Err.unknownTag : Err := .rerror (lit "unknown tag")
def Err.closed : Err := .other (lit "closed")

/-- The method `Error` of each of them. -/
def Err.error : Err → Bytes
  | .rerror ename => lit "9p: " ++ ename
  | .eof => lit "EOF"
  | .unexpectedEOF => lit "unexpected EOF"
  | .overflow size => lit "message overflowed " ++ lit (toString size) ++ lit " bytes"
  | .other text => text

/-- `Overflow`.  No error here has a `Cause`. -/
def overflow : Err → Int
  | .overflow size => size
  | _ => 0

end P9p
