/-
# `P9p.CFileSys.Calls` — programs over a client file system

The methods of `cfilesys.go` are programs: each makes at most one call on the
session, some with a fid that the file system takes for it before.  `Ask` is such
a call, and `Plan` a program of them.  What uses the file system is a `Plan` too,
made of the methods.

    a caller ──▸ FileSys, Dirent, File ──▸ Ask ──▸ newFid ; session

A `Dirent` is a `cEnt`, or `noEnt`, whose pointer to the file system is nil; a
method that follows it panics.

**Fids.**  `newFid` counts.  There is no way to give one back, and none to use
one twice: `Ask` has no calls that bind a fid of the caller's choice.
-/
import Mathlib.Data.List.Infix
import P9p.CFileSys.Listing
import P9p.Lib.Prog

namespace P9p.CFileSys

open Conc

/-! ## Calls -/

/-- A call of a method on the session.  The first four take a new fid; `newFid`
does nothing with it. -/
inductive Ask where
  | newFid
  | auth (uname aname : Bytes)
  | attach (afid : Fid) (uname aname : Bytes)
  | walk (fid : Fid) (names : List Bytes)
  | open (fid : Fid) (mode : Flag)
  | create (fid : Fid) (name : Bytes) (perm : UInt32) (mode : Flag)
  | read (fid : Fid) (p : Bytes) (offset : Int64)
  | write (fid : Fid) (p : Bytes) (offset : Int64)
  | stat (fid : Fid)
  | wstat (fid : Fid) (dir : Dir)
  | clunk (fid : Fid)
  | remove (fid : Fid)

abbrev Ask.Res : Ask → Type
  | newFid => Fid
  | auth _ _ | attach _ _ _ => Fid × Except Err Qid
  | walk _ _ => Fid × Except Err (List Qid)
  | «open» _ _ | create _ _ _ _ => Except Err (Qid × UInt32)
  | read _ _ _ => Except Err (Nat × Bytes × Option Err)
  | write _ _ _ => Except Err (Nat × Option Err)
  | stat _ => Except Err Dir
  | wstat _ _ | clunk _ | remove _ => Except Err Unit

section Session

variable {τ : Type}

def onNewFid {α : Type} (x : Fid → Handling τ α) : Handling (FsState τ) (Fid × Except Err α) := do
  let fid ← newFid
  return (fid, ← (onSession (x fid)).attempt)

/-- The call, on a session that is a client. -/
def Ask.perform (send : RoundTripper τ) : (c : Ask) → Handling (FsState τ) c.Res
  | newFid => CFileSys.newFid
  | auth uname aname => onNewFid fun fid => Client.auth send fid uname aname
  | attach afid uname aname => onNewFid fun fid => Client.attach send fid afid uname aname
  | walk fid names => onNewFid fun next => Client.walk send fid next names
  | «open» fid mode => (onSession (Client.open send fid mode)).attempt
  | create fid name perm mode => (onSession (Client.create send fid name perm mode)).attempt
  | read fid p offset => (onSession (Client.read send fid p offset)).attempt
  | write fid p offset => (onSession (Client.write send fid p offset)).attempt
  | stat fid => (onSession (Client.stat send fid)).attempt
  | wstat fid dir => (onSession (Client.wstat send fid dir)).attempt
  | clunk fid => (onSession (Client.clunk send fid)).attempt
  | remove fid => (onSession (Client.remove send fid)).attempt

/-- A call as a step; there is none if it panics. -/
def Ask.exec (send : RoundTripper τ) (fs : FsState τ) (_ : Nat) (c : Ask) (_ : Unit) :
    Option (c.Res × FsState τ) :=
  match c.perform send fs with
  | (.ok r, fs') => some (r, fs')
  | (.error _, _) => none

end Session

abbrev Plan := Prog Ask Ask.Res

def ask (c : Ask) : Plan c.Res := Prog.issue c

/-! ## `FileSys` -/

/-- An `AuthFile` as `Attach` gets it: nil, an `aFile`, or one of another type.
`noAuth` is an `aFile` without a session. -/
inductive AuthFile where
  | null
  | aFile (afid : Option Fid)
  | other
  deriving DecidableEq

def AuthFile.afid : AuthFile → Option Fid
  | null => some noFid
  | aFile afid => some (afid.getD noFid)
  | other => none

/-- A `cEnt`, or `noEnt`. -/
abbrev Dirent := Option CEnt

def auth (uname aname : Bytes) : Plan (AuthFile × Option Err) := do
  let (aFid, r) ← ask (.auth uname aname)
  match r with
  | .error err => return (.aFile none, some err)
  | .ok _ => return (.aFile (some aFid), none)

def attach (uname aname : Bytes) (af : AuthFile) : Plan (Dirent × Option Err) := do
  match af.afid with
  | none =>
      let _ ← ask .newFid
      return (none, some .unknownfid)
  | some aFid =>
      let (rootFid, r) ← ask (.attach aFid uname aname)
      match r with
      | .error err => return (none, some err)
      | .ok qid => return (some ⟨rootFid, qid⟩, none)

/-! ## `Dirent` -/

namespace Dirent

/-- `ent.fs`. -/
def deref : Dirent → Plan CEnt
  | none => .crash
  | some ent => return ent

def qid (ent : Dirent) : Qid := (ent.getD noEnt).qid

def isDir (ent : Dirent) : Bool := ent.qid.type &&& qtdir ≠ 0

def walk (ent : Dirent) (names : List Bytes) : Plan (List Qid × Dirent × Option Err) := do
  let (steps, bsp) := normalizePath names
  if bsp < 0 then
    return ([], ent, some (.rerror (lit "invalid path: " ++ joinNames names)))
  let (next, r) ← ask (.walk (← ent.deref).fid steps)
  match r with
  | .error err => return ([], none, some err)
  | .ok qids =>
      if qids.length ≠ names.length then
        return (qids, none, some (.other (lit "Incomplete walk result")))
      return (qids, some ⟨next, qids.getLastD ent.qid⟩, none)

/-- An iounit of 0 stands for what fits into a message; the msize is that of the
session. -/
def ioUnit (msize : Int) (iounit : UInt32) : Int := if iounit < 1 then msize - 11 else iounit.toNat

def «open» (msize : Int) (ent : Dirent) (mode : Flag) : Plan (FileRef × Option Err) := do
  let ent ← ent.deref
  match ← ask (.open ent.fid mode) with
  | .error err => return (⟨ent, ioUnit msize 0⟩, some err)
  | .ok (_, iounit) => return (⟨ent, ioUnit msize iounit⟩, none)

/-- With the `Dirent` comes the file; after an error it is `noFile`. -/
def create (msize : Int) (ent : Dirent) (name : Bytes) (perm : UInt32) (mode : Flag) :
    Plan (Dirent × Option FileRef × Option Err) := do
  if name.length = 0 ∨ name = lit "." ∨ name = lit ".." ∨ lit "/\\" <:+: name then
    return (none, none, some (.rerror (lit "Invalid filename")))
  if !ent.isDir then
    return (none, none, some (.rerror (lit "create in non-directory")))
  let ent ← ent.deref
  match ← ask (.create ent.fid name perm mode) with
  | .error err => return (none, none, some err)
  | .ok (qid, iounit) =>
      return (some { ent with qid }, some ⟨{ ent with qid }, ioUnit msize iounit⟩, none)

def stat (ent : Dirent) : Plan (Dir × Option Err) := do
  match ← ask (.stat (← ent.deref).fid) with
  | .error err => return (Dir.zero, some err)
  | .ok dir => return (dir, none)

/-- The error, if there is one. -/
def failed : Except Err Unit → Option Err
  | .error err => some err
  | .ok _ => none

def wstat (ent : Dirent) (dir : Dir) : Plan (Option Err) := do
  return failed (← ask (.wstat (← ent.deref).fid dir))

def clunk (ent : Dirent) : Plan (Option Err) := do
  return failed (← ask (.clunk (← ent.deref).fid))

def remove (ent : Dirent) : Plan (Option Err) := do
  return failed (← ask (.remove (← ent.deref).fid))

end Dirent

/-! ## `File` -/

/-- The count, and what is in the buffer then. -/
def FileRef.read (f : FileRef) (p : Bytes) (offset : Int64) : Plan (Nat × Bytes × Option Err) := do
  match ← ask (.read f.ent.fid p offset) with
  | .error err => return (0, p, some err)
  | .ok r => return r

def FileRef.write (f : FileRef) (p : Bytes) (offset : Int64) : Plan (Nat × Option Err) := do
  match ← ask (.write f.ent.fid p offset) with
  | .error err => return (0, some err)
  | .ok r => return r

/-! ## The methods on a client -/

section Clients

variable {τ : Type} {send : RoundTripper τ} {fs fs' : FsState τ} {env : Nat → Unit} {n : Nat}

theorem exec_ok {c : Ask} {r : c.Res} (h : c.perform send fs = (.ok r, fs')) :
    Ask.exec send fs 0 c () = some (r, fs') := by
  rw [Ask.exec, h]

/-- `Walk` is the method that `P9p.CFileSys` has. -/
theorem walk_runs {ent : CEnt} {names : List Bytes} {w : Walked}
    (h : ent.walk send names fs = (.ok w, fs')) :
    Prog.Ends (Ask.exec send) 0 env
      (fun r s => s = fs' ∧ r.1 = w.qids ∧ r.2.1.getD noEnt = w.ent ∧ r.2.2 = w.err)
      (Dirent.walk (some ent) names) fs n := by
  rw [CEnt.walk] at h
  unfold Dirent.walk
  dsimp only at h ⊢
  split at h
  · rename_i hbsp
    rw [if_pos hbsp]
    cases h
    exact ⟨rfl, rfl, rfl, rfl⟩
  · rename_i hbsp
    rw [if_neg hbsp]
    obtain ⟨next, fs₀, hnew, h⟩ := Handling.bind_eq_ok h
    obtain ⟨r, fs₁, hattempt, h⟩ := Handling.bind_eq_ok h
    have hperform : (Ask.walk ent.fid (normalizePath names).1).perform send fs =
        (.ok (next, r), fs₁) := by
      refine (Handling.bind_ok hnew _).trans ?_
      rw [Handling.bind_ok hattempt]
      rfl
    refine Prog.Ends.cmd (exec_ok hperform) ?_
    cases r with
    | error err =>
        cases h
        exact ⟨rfl, rfl, rfl, rfl⟩
    | ok qids =>
        dsimp only at h ⊢
        split at h
        · rename_i hlen
          rw [if_pos hlen]
          cases h
          exact ⟨rfl, rfl, rfl, rfl⟩
        · rename_i hlen
          rw [if_neg hlen]
          cases h
          exact ⟨rfl, rfl, rfl, rfl⟩

end Clients

end P9p.CFileSys
