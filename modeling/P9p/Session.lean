/-
# The session over a file system (`sfilesys.go`)

`SFileSys` turns a `FileSys` into a `Session`: it keeps the table `refs` from
fids to `*SFid`, and every operation is a program of atomic commands on that
table, on the mutexes and fields of the `SFid`s, and of calls to the file
system.

    load, storeNew, loadAndDelete, delete      the sync.Map `refs`
    lock, unlock                               the mutex of an SFid
    getEnt, setEnt, getFile, setFile,
    getMode, setMode                           its fields
    enter c, leave c                           a call to the file system

**Calls take time.**  A call is two commands, so that another operation may
run in between; the call is under way in the thread that has to `leave` it.
What a call returns is chosen by the environment.  A `Dirent` or `File` that it
returns is a fresh handle.

**Mutexes.**  `lock` is undefined while the mutex is taken, whoever holds it:
Go's mutexes are not reentrant.  The holder recorded in `owner` is ghost
information; the code never asks for it.

**`defer`.**  `deferUnlock ref body` is a body whose function has deferred
`ref.Unlock()`.  A call of a method on a nil interface is a `crash` of the
process.
-/
import P9p.Lib.Prog
import P9p.Path

namespace P9p.Session

open Conc

/-! ## Files, and the calls to the file system -/

/-- The dynamic type of a `File`, as far as the session tells them apart. -/
inductive FileKind where
  | plain
  | auth
  | readdir
  deriving DecidableEq, Repr

structure File where
  id : Nat
  kind : FileKind
  deriving DecidableEq, Repr

/-- A call to a method of the `FileSys`, of a `Dirent` or of a `File`. -/
inductive Call where
  | requireAuth
  | auth (uname aname : Bytes)
  | attach (uname aname : Bytes) (af : Option File)
  | qid (ent : Nat)
  | openDir (ent : Nat)
  | walk (ent : Nat) (names : List Bytes)
  | create (ent : Nat) (name : Bytes) (perm : UInt32) (mode : Flag)
  | open (ent : Nat) (mode : Flag)
  | remove (ent : Nat)
  | clunk (ent : Nat)
  | stat (ent : Nat)
  | wstat (ent : Nat) (dir : Dir)
  | read (file : File) (len : Nat) (offset : Int64)
  | write (file : File) (p : Bytes) (offset : Int64)
  | ioUnit (file : File)
  | success (af : File)
  deriving DecidableEq, Repr

namespace Call

/-- What the environment chooses.  A `Bool` says whether the `Dirent` or
`AuthFile` returned is non-nil. -/
def Reply : Call → Type
  | requireAuth | success _ => Bool
  | auth _ _ | attach _ _ _ => Bool × Option Err
  | qid _ => Qid
  | openDir _ | remove _ | clunk _ | wstat _ _ => Option Err
  | walk _ _ => List Qid × Bool × Option Err
  | create _ _ _ _ => Bool × Option FileKind × Option Err
  | «open» _ _ => Option FileKind × Option Err
  | stat _ => Dir × Option Err
  | read _ _ _ | write _ _ _ => Int × Option Err
  | ioUnit _ => Int

/-- What the session gets: the reply with handles filled in.  The result of
`OpenDir` stands for the `Readdir` that `NewReaddir` makes of it. -/
def Res : Call → Type
  | requireAuth | success _ => Bool
  | auth _ _ => Option File × Option Err
  | attach _ _ _ => Option Nat × Option Err
  | qid _ => Qid
  | openDir _ => File × Option Err
  | remove _ | clunk _ | wstat _ _ => Option Err
  | walk _ _ => List Qid × Option Nat × Option Err
  | create _ _ _ _ => Option Nat × Option File × Option Err
  | «open» _ _ => Option File × Option Err
  | stat _ => Dir × Option Err
  | read _ _ _ | write _ _ _ => Int × Option Err
  | ioUnit _ => Int

/-- The reply, with the fresh handle `n`. -/
def answer (n : Nat) : (c : Call) → c.Reply → c.Res
  | requireAuth, b | success _, b => b
  | auth _ _, (nonNil, err) => (if nonNil then some ⟨n, .auth⟩ else none, err)
  | attach _ _ _, (nonNil, err) => (if nonNil then some n else none, err)
  | qid _, q => q
  | openDir _, err => (⟨n, .readdir⟩, err)
  | remove _, err | clunk _, err | wstat _ _, err => err
  | walk _ _, (qids, nonNil, err) => (qids, if nonNil then some n else none, err)
  | create _ _ _ _, (nonNil, kind, err) =>
      (if nonNil then some n else none, kind.map (File.mk n), err)
  | «open» _ _, (kind, err) => (kind.map (File.mk n), err)
  | stat _, r => r
  | read _ _ _, r | write _ _ _, r => r
  | ioUnit _, n => n

end Call

/-! ## The fid table -/

/-- `SFid`; `owner` is the thread that locked the mutex. -/
structure SFid where
  owner : Option Nat
  ent : Option Nat
  file : Option File
  mode : Flag
  deriving DecidableEq, Repr

/-- The map `refs`, and the `SFid`s allocated so far: those below `next`. -/
structure Table where
  refs : Fid → Option Nat
  sfid : Nat → SFid
  next : Nat
  bound : ∀ {fid ref}, refs fid = some ref → ref < next

/-- A new session: `refs` is empty. -/
def Table.empty : Table where
  refs _ := none
  sfid _ := ⟨none, none, none, 0⟩
  next := 0
  bound h := nomatch h

/-- Bind `fid` to a new `SFid`, locked by thread `t`. -/
def Table.bindNew (s : Table) (t : Nat) (fid : Fid) : Table where
  refs := Function.update s.refs fid (some s.next)
  sfid := Function.update s.sfid s.next ⟨some t, none, none, 0⟩
  next := s.next + 1
  bound := by
    intro fid' ref h
    rw [Function.update_apply] at h
    split at h
    · cases h
      exact Nat.lt_succ_self _
    · exact Nat.lt_succ_of_lt (s.bound h)

def Table.unbind (s : Table) (fid : Fid) : Table :=
  { s with
    refs := Function.update s.refs fid none
    bound := by
      intro fid' ref h
      rw [Function.update_apply] at h
      split at h
      · cases h
      · exact s.bound h }

/-- The operations of a session. -/
inductive Op where
  | auth (afid : Fid) (uname aname : Bytes)
  | attach (fid afid : Fid) (uname aname : Bytes)
  | clunk (fid : Fid)
  | remove (fid : Fid)
  | walk (fid newfid : Fid) (names : List Bytes)
  | read (fid : Fid) (len : Nat) (offset : Int64)
  | write (fid : Fid) (p : Bytes) (offset : Int64)
  | open (fid : Fid) (mode : Flag)
  | create (parent : Fid) (name : Bytes) (perm : UInt32) (mode : Flag)
  | stat (fid : Fid)
  | wstat (fid : Fid) (dir : Dir)
  deriving DecidableEq, Repr

/-- What happened, and in which thread. -/
inductive Event where
  | invoked (t : Nat) (op : Op)
  | stored (t : Nat) (fid : Fid) (ref : Nat)
  | took (t : Nat) (fid : Fid) (ref : Nat)
  | deleted (t : Nat) (fid : Fid) (ref : Option Nat)
  | enter (t : Nat) (c : Call)
  | leave (t : Nat) (c : Call) (res : c.Res)

/-- The table, with the number of calls answered, which numbers the handles,
and a log. -/
structure Store extends Table where
  calls : Nat
  log : List Event

namespace Store

def record (s : Store) (e : Event) : Store := { s with log := s.log ++ [e] }

def bindNew (s : Store) (t : Nat) (fid : Fid) : Store :=
  { s with toTable := s.toTable.bindNew t fid }

def unbind (s : Store) (fid : Fid) : Store := { s with toTable := s.toTable.unbind fid }

def modify (s : Store) (ref : Nat) (g : SFid → SFid) : Store :=
  { s with sfid := Function.update s.sfid ref (g (s.sfid ref)) }

def answered (s : Store) (t : Nat) (c : Call) (res : c.Res) : Store :=
  { s with calls := s.calls + 1, log := s.log ++ [.leave t c res] }

end Store

/-! ## Commands -/

/-- `storeNew fid` is `LoadOrStore` of an `SFid` that `newRef` has just made
and locked; nobody else can have seen it. -/
inductive Cmd where
  | load (fid : Fid)
  | storeNew (fid : Fid)
  | loadAndDelete (fid : Fid)
  | delete (fid : Fid)
  | lock (ref : Nat)
  | unlock (ref : Nat)
  | getEnt (ref : Nat)
  | setEnt (ref : Nat) (ent : Option Nat)
  | getFile (ref : Nat)
  | setFile (ref : Nat) (file : Option File)
  | getMode (ref : Nat)
  | setMode (ref : Nat) (mode : Flag)
  | enter (c : Call)
  | leave (c : Call)
  deriving DecidableEq

/-- The result of a command; of `storeNew`, the new `SFid` if it was stored. -/
def Cmd.Res : Cmd → Type
  | load _ | storeNew _ | loadAndDelete _ | getEnt _ => Option Nat
  | getFile _ => Option File
  | getMode _ => Flag
  | leave c => c.Res
  | _ => Unit

/-- The environment's answer to whatever call is being left. -/
abbrev Env := (c : Call) → c.Reply

def exec (s : Store) (t : Nat) : (c : Cmd) → Env → Option (c.Res × Store)
  | .load fid, _ => some (s.refs fid, s)
  | .storeNew fid, _ =>
      match s.refs fid with
      | some _ => some (none, s)
      | none => some (some s.next, (s.bindNew t fid).record (.stored t fid s.next))
  | .loadAndDelete fid, _ =>
      match s.refs fid with
      | none => some (none, s)
      | some ref => some (some ref, (s.unbind fid).record (.took t fid ref))
  | .delete fid, _ => some ((), (s.unbind fid).record (.deleted t fid (s.refs fid)))
  | .lock ref, _ =>
      match (s.sfid ref).owner with
      | none => some ((), s.modify ref fun f => { f with owner := some t })
      | some _ => none
  | .unlock ref, _ =>
      match (s.sfid ref).owner with
      | none => none
      | some _ => some ((), s.modify ref fun f => { f with owner := none })
  | .getEnt ref, _ => some ((s.sfid ref).ent, s)
  | .setEnt ref ent, _ => some ((), s.modify ref fun f => { f with ent })
  | .getFile ref, _ => some ((s.sfid ref).file, s)
  | .setFile ref file, _ => some ((), s.modify ref fun f => { f with file })
  | .getMode ref, _ => some ((s.sfid ref).mode, s)
  | .setMode ref mode, _ => some ((), s.modify ref fun f => { f with mode })
  | .enter c, _ => some ((), s.record (.enter t c))
  | .leave c, env =>
      some (c.answer s.calls (env c), s.answered t c (c.answer s.calls (env c)))

/-- The results of the operations. -/
inductive Ret where
  | qid (q : Qid) (err : Option Err)
  | qids (qs : List Qid) (err : Option Err)
  | count (n : Int) (err : Option Err)
  | opened (q : Qid) (iounit : UInt32) (err : Option Err)
  | stat (dir : Dir) (err : Option Err)
  | done (err : Option Err)
  deriving DecidableEq, Repr

def Ret.err : Ret → Option Err
  | qid _ err | qids _ err | count _ err | opened _ _ err | stat _ err | done err => err

abbrev M := Prog Cmd Cmd.Res

abbrev issue (c : Cmd) : M c.Res := Prog.issue c

/-! ## Helpers of the operations -/

/-- A call to the file system. -/
def call (c : Call) : M c.Res := do
  issue (.enter c)
  issue (.leave c)

/-- The body of a function that has deferred `ref.Unlock()`. -/
def deferUnlock {α : Type} (ref : Nat) (body : M α) : M α := do
  let a ← body
  issue (.unlock ref)
  return a

/-- `ref.Ent`, as the receiver of a method. -/
def ent (ref : Nat) : M Nat := do
  match ← issue (.getEnt ref) with
  | none => .crash
  | some d => return d

/-- `ref.File`, as the receiver of a method. -/
def file (ref : Nat) : M File := do
  match ← issue (.getFile ref) with
  | none => .crash
  | some f => return f

/-- `EnsureNonNil`, together with the value it has checked. -/
def ensureNonNil {α : Type} : Option α → Option Err → Except Err α
  | _, some err => .error err
  | none, none => .error (.rerror (lit "invalid result"))
  | some x, none => .ok x

def isDir (d : Nat) : M Bool := do
  let q ← call (.qid d)
  return q.type &&& qtdir ≠ 0

/-- `uint32(file.IOUnit())`; a `Readdir` answers 0 itself. -/
def ioUnit (f : File) : M UInt32 := do
  if f.kind = .readdir then return 0
  let n : Int ← call (.ioUnit f)
  return UInt32.ofNat (n % 2 ^ 32).toNat

def getRef (fid : Fid) : M (Except Err Nat) := do
  if fid = noFid then return .error .unknownfid
  match ← issue (.load fid) with
  | none => return .error .unknownfid
  | some ref =>
      issue (.lock ref)
      match ← issue (.getEnt ref) with
      | none =>
          issue (.unlock ref)
          return .error .unknownfid
      | some _ => return .ok ref

def link (ref : Nat) (ent : Option Nat) : M Unit := issue (.setEnt ref ent)

def newRef (fid : Fid) : M (Except Err Nat) := do
  if fid = noFid then return .error .unknownfid
  match ← issue (.storeNew fid) with
  | none => return .error .dupfid
  | some ref => return .ok ref

/-- How most operations begin: look up the fid and defer `ref.Unlock()`. -/
def withRef (fid : Fid) (fail : Err → Ret) (body : Nat → M Ret) : M Ret := do
  match ← getRef fid with
  | .error err => return fail err
  | .ok ref => deferUnlock ref (body ref)

/-- The same for a new fid. -/
def withNewRef (fid : Fid) (fail : Err → Ret) (body : Nat → M Ret) : M Ret := do
  match ← newRef fid with
  | .error err => return fail err
  | .ok ref => deferUnlock ref (body ref)

def combineErrors : Option Err → Option Err → Option Err
  | none, err2 => err2
  | err, none => err
  | some err, some err2 => some (.rerror (err.error ++ lit "/" ++ err2.error))

def delRefAction (ref : Nat) (remove : Bool) : M (Option Err) := do
  let d ← ent ref
  let err2 ← if remove then call (.remove d) else call (.clunk d)
  issue (.setEnt ref none)
  return combineErrors none err2

def delRef (fid : Fid) (remove : Bool) : M (Option Err) := do
  match ← issue (.loadAndDelete fid) with
  | none => return some .unknownfid
  | some ref =>
      issue (.lock ref)
      deferUnlock ref do
        match ← issue (.getEnt ref) with
        | none => return none
        | some _ => delRefAction ref remove

/-- What `Stop` does when `Range` visits `fid`. -/
def sweep (fid : Fid) : M Unit := do
  match ← issue (.load fid) with
  | none => return ()
  | some ref =>
      match ← issue (.getEnt ref) with
      | none => return ()
      | some _ =>
          let _ ← delRefAction ref false
          return ()

/-! ## The operations -/

/-- `Stop`; `Range` visits the fids in the order given. -/
def stop (err : Option Err) : List Fid → M Ret
  | [] => return .done err
  | fid :: fids => do
      sweep fid
      stop err fids

/-- `Qid{}`. -/
def noQid : Qid := ⟨0, 0, 0⟩

def auth (afid : Fid) (uname aname : Bytes) : M Ret := do
  let aq : Qid := ⟨qtauth, 0, 0⟩
  if afid = noFid then return .qid aq none
  let required : Bool ← call .requireAuth
  if !required then return .qid aq (some (.rerror (lit "no auth")))
  withNewRef afid (fun err => .qid aq (some err)) fun aref => do
    let (afile, err) ← call (.auth uname aname)
    match err with
    | some err =>
        issue (.delete afid)
        return .qid aq (some err)
    | none =>
        issue (.setFile aref afile)
        return .qid aq none

/-- The second half of `Attach`, with the `AuthFile` found in the first. -/
def attachWith (fid : Fid) (uname aname : Bytes) (af : Option File) : M Ret :=
  withNewRef fid (fun err => .qid noQid (some err)) fun ref => do
    let (e, err) ← call (.attach uname aname af)
    match err with
    | some err =>
        issue (.delete fid)
        return .qid noQid (some err)
    | none =>
        link ref e
        match e with
        | none => .crash
        | some d =>
            let q ← call (.qid d)
            return .qid q none

/-- `Attach` once it has found a `File` in `aref`. -/
def attachFile (fid : Fid) (aref : Nat) (uname aname : Bytes) : M Ret :=
  deferUnlock aref do
    match ← issue (.getFile aref) with
    | some ⟨id, .auth⟩ =>
        let ok : Bool ← call (.success ⟨id, .auth⟩)
        if !ok then return .qid noQid (some .perm)
        attachWith fid uname aname (some ⟨id, .auth⟩)
    | _ => return .qid noQid (some .unknownfid)

def attach (fid afid : Fid) (uname aname : Bytes) : M Ret := do
  if afid = noFid then attachWith fid uname aname none
  else
    match ← getRef afid with
    | .error _ => return .qid noQid (some .unknownfid)
    | .ok aref =>
        match ← issue (.getFile aref) with
        -- here `aref` is still locked
        | none => return .qid noQid (some .unknownfid)
        | some _ => attachFile fid aref uname aname

def clunk (fid : Fid) : M Ret := do return .done (← delRef fid false)

def remove (fid : Fid) : M Ret := do return .done (← delRef fid true)

/-- The part of `Walk` that finds `qids` and `ent`: the walk itself, or the
pair that `Walk` returns at once. -/
def walkEnt (ref : Nat) (same : Bool) (names : List Bytes) : M (Except Ret (List Qid × Nat)) := do
  if names = [] then
    if same then return .error (.qids [] none)
    let (_, e, err) ← call (.walk (← ent ref) [])
    match ensureNonNil e err with
    | .error err => return .error (.qids [] (some err))
    | .ok d => return .ok ([], d)
  else
    unless ← isDir (← ent ref) do
      return .error (.qids [] (some (.rerror (lit "not a directory"))))
    let (qids, e, err) ← call (.walk (← ent ref) names)
    match ensureNonNil e err with
    | .error err => return .error (.qids [] (some err))
    | .ok d =>
        if qids.length = 0 then return .error (.qids [] none)
        return .ok (qids, d)

/-- `Walk` between `newRef` and the return.  With the result come the values
that the variables `ref` and `newref` have then; `newref` is nil where `newfid`
is `fid`. -/
def walkLocked (ref : Nat) (newref : Option Nat) (names : List Bytes) :
    M (Ret × Nat × Option Nat) := do
  match ← walkEnt ref newref.isNone names with
  | .error r => return (r, ref, newref)
  | .ok (qids, d) =>
      if qids.length ≠ names.length then return (.qids qids none, ref, newref)
      match newref with
      | none =>
          -- the error of `Clunk` is ignored
          let _ ← call (.clunk (← ent ref))
          link ref (some d)
          return (.qids qids none, ref, none)
      | some newref =>
          issue (.unlock ref)
          link newref (some d)
          return (.qids qids none, newref, none)

/-- The function that `Walk` defers. -/
def walkCleanup (newfid : Fid) (ref : Nat) : Option Nat → M Unit
  | none => issue (.unlock ref)
  | some newref => do
      issue (.unlock ref)
      issue (.delete newfid)
      issue (.unlock newref)

/-- `newref` as `Walk` first sets it. -/
def walkRef (fid newfid : Fid) : M (Except Err (Option Nat)) := do
  if newfid = fid then return .ok none
  match ← newRef newfid with
  | .error err => return .error err
  | .ok newref => return .ok (some newref)

def walk (fid newfid : Fid) (names : List Bytes) : M Ret := do
  if validPath names < 0 then return .qids [] (some (.rerror (lit "Non-normalized path")))
  match ← getRef fid with
  | .error err => return .qids [] (some err)
  | .ok ref =>
      match ← walkRef fid newfid with
      | .error err =>
          walkCleanup newfid ref none
          return .qids [] (some err)
      | .ok newref =>
          let (r, ref, newref) ← walkLocked ref newref names
          walkCleanup newfid ref newref
          return r

/-- `Read` and `Write` alike: `denied` is the answer where the mode is one of
those that `refuses` lists. -/
def transfer (fid : Fid) (refuses : Flag → Bool) (denied : Err)
    (io : File → M (Int × Option Err)) : M Ret :=
  withRef fid (fun err => .count 0 (some err)) fun ref => do
    match ← issue (.getFile ref) with
    | none => return .count 0 (some (.rerror (lit "no file open")))
    | some _ =>
        let mode ← issue (.getMode ref)
        if refuses mode then return .count 0 (some denied)
        let (n, err) ← io (← file ref)
        return .count n err

def read (fid : Fid) (len : Nat) (offset : Int64) : M Ret :=
  transfer fid (fun mode => mode &&& oexec = owrite) .noread fun f => call (.read f len offset)

def write (fid : Fid) (p : Bytes) (offset : Int64) : M Ret :=
  transfer fid (fun mode => mode &&& oexec ≠ owrite ∧ mode &&& oexec ≠ ordwr) .nowrite
    fun f => call (.write f p offset)

/-- `openLocked` after its check of `ref.File`, without the assignments at its
end.  `getEnt` evaluates `ref.Ent`, which is done anew for the call that opens
it.  That `OpenDir` returns a function, so `EnsureNonNil` sees only its
error. -/
def openEnt (getEnt : M Nat) (mode : Flag) : M (Except Err File) := do
  if ← isDir (← getEnt) then
    let (dirs, err) ← call (.openDir (← getEnt))
    match err with
    | some err => return .error err
    | none => return .ok dirs
  else
    let (f, err) ← call (.open (← getEnt) mode)
    return ensureNonNil f err

def openLocked (ref : Nat) (mode : Flag) : M (Option Err) := do
  match ← issue (.getFile ref) with
  | some _ => return some (.rerror (lit "already open"))
  | none =>
      match ← openEnt (ent ref) mode with
      | .error err => return some err
      | .ok f =>
          issue (.setFile ref (some f))
          issue (.setMode ref mode)
          return none

def «open» (fid : Fid) (mode : Flag) : M Ret :=
  withRef fid (fun err => .opened noQid 0 (some err)) fun ref => do
    match ← openLocked ref mode with
    | some err => return .opened noQid 0 (some err)
    | none =>
        let q ← call (.qid (← ent ref))
        let n ← ioUnit (← file ref)
        return .opened q n none

/-- The end of `Create`: the parent's fid now stands for what was created. -/
def replaceEnt (ref d : Nat) (f : File) (mode : Flag) : M Ret := do
  issue (.setFile ref none)
  issue (.setMode ref 0)
  link ref (some d)
  issue (.setFile ref (some f))
  issue (.setMode ref mode)
  let q ← call (.qid (← ent ref))
  let n ← ioUnit f
  return .opened q n none

/-- The two uses of `EnsureNonNil` in `Create`. -/
def created (e : Option Nat) (f : Option File) (err : Option Err) : Except Err (Nat × File) :=
  match ensureNonNil e err with
  | .error err => .error err
  | .ok d => (ensureNonNil f none).map (d, ·)

/-- The function `fail` of `Create`. -/
def createFail (name : Bytes) : Ret := .opened noQid 0 (some (.rerror name))

/-- `Create` once the parent is locked.  Of a new directory the session opens
its own reader, through the local variable `next`, an `SFid` with nothing but
its `Ent`. -/
def createLocked (ref : Nat) (parent : Fid) (name : Bytes) (perm : UInt32) (mode : Flag) :
    M Ret := do
  unless ← isDir (← ent ref) do return createFail (lit "create in non-directory")
  let (e, f, err) ← call (.create (← ent ref) name perm mode)
  match created e f err with
  | .error err => return createFail err.error
  | .ok (d, f) =>
      if ← isDir d then
        match ← openEnt (pure d) mode with
        | .error err =>
            -- the result of `delRef` is ignored
            let _ ← delRef parent false
            return createFail err.error
        | .ok f => replaceEnt ref d f mode
      else replaceEnt ref d f mode

def create (parent : Fid) (name : Bytes) (perm : UInt32) (mode : Flag) : M Ret := do
  if name = lit "." ∨ name = lit ".." then return createFail (lit "illegal filename")
  withRef parent (fun err => createFail err.error) fun ref =>
    createLocked ref parent name perm mode

def stat (fid : Fid) : M Ret :=
  withRef fid (fun err => .stat Dir.zero (some err)) fun ref => do
    let (dir, err) ← call (.stat (← ent ref))
    return .stat dir err

def wstat (fid : Fid) (dir : Dir) : M Ret :=
  withRef fid (fun err => .done (some err)) fun ref => do
    return .done (← call (.wstat (← ent ref) dir))

def Op.prog : Op → M Ret
  | .auth afid uname aname => Session.auth afid uname aname
  | .attach fid afid uname aname => Session.attach fid afid uname aname
  | .clunk fid => Session.clunk fid
  | .remove fid => Session.remove fid
  | .walk fid newfid names => Session.walk fid newfid names
  | .read fid len offset => Session.read fid len offset
  | .write fid p offset => Session.write fid p offset
  | .open fid mode => Session.open fid mode
  | .create parent name perm mode => Session.create parent name perm mode
  | .stat fid => Session.stat fid
  | .wstat fid dir => Session.wstat fid dir

def start (s : Store) (t : Nat) (op : Op) : Store := s.record (.invoked t op)

/-! ## Any number of operations, interleaved -/

abbrev State := Pool Cmd Cmd.Res Ret Store

abbrev step : State → Sched Op Env → Option State := Pool.step exec start Op.prog

def init : Store := { Table.empty with calls := 0, log := [] }

def initial : State := ⟨init, []⟩

/-- `n` commands of thread `t`. -/
def turns (t n : Nat) (env : Env) : List (Sched Op Env) := List.replicate n (.run t env)

/-- A file system on which every call succeeds and everything is a
directory. -/
def agreeable : Env
  | .requireAuth | .success _ => true
  | .auth _ _ | .attach _ _ _ => (true, none)
  | .qid _ => (⟨qtdir, 0, 0⟩ : Qid)
  | .openDir _ | .remove _ | .clunk _ | .wstat _ _ => (none : Option Err)
  | .walk _ names => (names.map fun _ => ⟨qtdir, 0, 0⟩, true, none)
  | .create _ _ _ _ => (true, some .plain, none)
  | .open _ _ => (some .plain, none)
  | .stat _ => (Dir.zero, none)
  | .read _ _ _ | .write _ _ _ => ((0 : Int), none)
  | .ioUnit _ => (0 : Int)

end P9p.Session
