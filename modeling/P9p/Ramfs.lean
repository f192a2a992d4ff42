/-
# The file tree in memory (`ramfs/`)

`ramfs` keeps a tree of `FileEnt`s.  A `FileHandle` is what a client holds: a
node, with all the directories on the way to it.  Every node counts the
references to it, one for the link from its directory and one for each time it
occurs in a handle; the root has one more.  At zero it gives up its children.

Each operation is a program of atomic commands.

    lock, unlock                               the fid's mutex, in the session
    consume, put, replace                      the handles the clients hold
    incref, decr, children, drop               the count of a node, and its end
    lookup, link, unlink                       its names
    info, list, wstat, read, write             its contents
    nextPath, now                              the server, the clock

**Handles.**  The session lets one operation at a time use a handle, and drops
it with `Clunk`, with `Remove`, and with a `Create` that succeeds.

**`decref`** locks the node only while it counts down; that it then visits the
children and drops the map are commands of their own.  Its recursion is bounded
by `fuel`.

**`home`** is ghost information: the directory a node was linked into.  The code
never asks for it.
-/
import P9p.Lib.Prog
import P9p.Lib.Tally
import P9p.Path

namespace P9p.Ramfs

open Conc Tally

/-! ## Nodes -/

abbrev Names := AList fun _ : Bytes => Nat

/-- `FileEnt`; a nil map is `none`. -/
structure Node where
  nref : Int
  children : Option Names
  info : Dir
  data : Bytes
  home : Nat

def newDir (path : UInt64) (fname uname : Bytes) (mode : UInt32) (now : Time) : Dir :=
  { Dir.zero with
    qid := ⟨if mode &&& dmdir > 0 then qtdir else 0, 0, path⟩
    name := fname
    mode
    accessTime := now
    modTime := now
    uid := uname
    gid := lit "users"
    muid := uname }

def withName (name : Bytes) (dir : Dir) : Dir := { dir with name }

/-- `ENotImpl`. -/
def eNotImpl : Err := .rerror (lit "not implemented")

namespace Node

def isDir (f : Node) : Bool := f.info.mode &&& dmdir > 0

/-- The node that `fServer.Create` makes. -/
def create (info : Dir) (home : Nat) : Node :=
  ⟨1, if info.qid.type &&& qtdir ≠ 0 then some ∅ else none, info, [], home⟩

def addRef (f : Node) (i : Int) : Node := { f with nref := f.nref + i }

def withChildren (f : Node) (children : Option Names) : Node := { f with children }

/-- The assignments of `WStat` that are made whatever comes after them. -/
def setInfo (f : Node) (dir : Dir) : Node :=
  { f with info := { f.info with
    mode := if dir.mode ≠ 0xFFFFFFFF then dir.mode else f.info.mode
    uid := if dir.uid ≠ [] then dir.uid else f.info.uid
    gid := if dir.gid ≠ [] then dir.gid else f.info.gid } }

def wstat (f : Node) (dir : Dir) : Option Err × Node :=
  let f := f.setInfo dir
  if dir.name ≠ [] then (some eNotImpl, f)
  else if dir.length ≠ 0xFFFFFFFFFFFFFFFF then
    if UInt64.ofNat f.data.length < dir.length then
      (some (.rerror (lit "Size larger than file")), f)
    else (none, { f with data := f.data.take dir.length.toNat })
  else (none, f)

/-- What `Read` copies into a buffer of length `len`; `none` is a panic. -/
def read (f : Node) (len : Nat) (offset : Int64) : Option (Bytes × Option Err) :=
  let n := f.data.length
  if offset.toInt > n then some ([], some .eof)
  else if offset.toInt < 0 then none
  else
    let off := offset.toInt.toNat
    let m := if off + len > n then n - off else len
    some ((f.data.drop off).take m, none)

/-- `copy(data[off:], p)`. -/
def splice (data : Bytes) (off : Nat) (p : Bytes) : Bytes :=
  data.take off ++ p ++ data.drop (off + p.length)

def write (f : Node) (p : Bytes) (offset : Int64) : Option ((Nat × Option Err) × Node) :=
  let n := f.data.length
  if offset.toInt > n then some ((0, some (.rerror (lit "invalid address"))), f)
  else if offset.toInt < 0 then none
  else
    let off := offset.toInt.toNat
    let m := p.length
    let data :=
      if off + m > n then splice f.data off (p.take (n - off)) ++ p.drop (n - off)
      else splice f.data off p
    some ((m, none), { f with
      data
      info := { f.info with
        qid := { f.info.qid with version := f.info.qid.version + 1 }
        length := UInt64.ofNat data.length } })

end Node

/-! ## The server and the handles -/

/-- `FileHandle`, with the user of its `fSession`. -/
structure Handle where
  path : Bytes
  mode : Flag
  ent : Nat
  uname : Bytes
  parents : List Nat
  deriving DecidableEq, Repr

/-- The nodes a handle refers to, from the root down. -/
def Handle.chain (h : Handle) : List Nat := h.parents ++ [h.ent]

/-- Handles are known by the session that holds them and a number. -/
abbrev Key := Nat × Nat

/-- A handle that a client holds; `busy` while an operation uses it. -/
structure Slot where
  handle : Handle
  busy : Bool
  deriving DecidableEq, Repr

/-- The nodes allocated so far are those below `next`; the root is node 0.  A
`File` is a copy of a handle, of which only the node is used. -/
structure Store where
  node : Nat → Node
  next : Nat
  lastpath : UInt64
  handles : AList fun _ : Key => Slot
  files : Key → Option Nat

/-- The root, and nodes that are not there yet. -/
def initNode (now : Time) : Nat → Node
  | 0 => ⟨1, some ∅, newDir 1 (lit "/") (lit "root") (dmdir ||| 0o775) now, [], 0⟩
  | _ => ⟨0, none, Dir.zero, [], 0⟩

/-- A fresh server. -/
def init (now : Time) : Store := ⟨initNode now, 1, 1, ∅, fun _ => none⟩

def Store.set (s : Store) (n : Nat) (f : Node) : Store :=
  { s with node := Function.update s.node n f }

/-- The entry of a name in a map that may be nil. -/
def Store.entry (s : Store) (n : Nat) (name : Bytes) : Option Nat :=
  (s.node n).children.bind (AList.lookup name)

/-- `p`, whose map is `m`, gets a new node. -/
def Store.linkNew (s : Store) (p : Nat) (m : Names) (info : Dir) : Store :=
  { s with
    node := Function.update
      (Function.update s.node p ((s.node p).withChildren (some (m.insert info.name s.next))))
      s.next (.create info p)
    next := s.next + 1 }

/-! ## Commands -/

/-- `unlink p name ent` is called for the node `ent`; the code does not look at
it.  `link p info` links the node that `fServer.Create` has just made and that
nobody else has seen. -/
inductive Cmd where
  | lock (k : Key)
  | unlock (k : Key)
  | consume (k : Key)
  | put (k : Key) (h : Handle)
  | replace (k k' : Key) (h : Handle)
  | incref (n : Nat)
  | decr (n : Nat)
  | children (n : Nat)
  | drop (n : Nat)
  | lookup (n : Nat) (name : Bytes)
  | link (p : Nat) (info : Dir)
  | unlink (p : Nat) (name : Bytes) (ent : Nat)
  | info (n : Nat)
  | list (n : Nat)
  | wstat (n : Nat) (dir : Dir)
  | read (n len : Nat) (offset : Int64)
  | write (n : Nat) (p : Bytes) (offset : Int64)
  | setFile (k : Key) (n : Nat)
  | getFile (k : Key)
  | nextPath
  | now

def Cmd.Res : Cmd → Type
  | lock _ | consume _ => Handle
  | incref _ => Bytes
  | decr _ => Int
  | children _ => Option (List Nat)
  | lookup _ _ => Option Nat
  | link _ _ => Except Err Nat
  | unlink _ _ _ | wstat _ _ => Option Err
  | info _ => Dir
  | list _ => Except Err (List Dir)
  | read _ _ _ => Option (Bytes × Option Err)
  | write _ _ _ => Option (Nat × Option Err)
  | getFile _ => Option Nat
  | nextPath => UInt64
  | now => Time
  | _ => Unit

/-- The clock, and the order in which a map is visited. -/
structure Env where
  now : Time
  order : (l : List Nat) → { l' : List Nat // l'.Perm l }

/-- The clock stands still, and maps are visited in the order they were built. -/
def still : Env := ⟨Time.zero, fun l => ⟨l, .refl l⟩⟩

def exec (s : Store) (_ : Nat) : (c : Cmd) → Env → Option (c.Res × Store)
  | .lock k, _ =>
      match s.handles.lookup k with
      | some ⟨h, false⟩ => some (h, { s with handles := s.handles.insert k ⟨h, true⟩ })
      | _ => none
  | .unlock k, _ =>
      match s.handles.lookup k with
      | some ⟨h, true⟩ => some ((), { s with handles := s.handles.insert k ⟨h, false⟩ })
      | _ => none
  | .consume k, _ =>
      match s.handles.lookup k with
      | some ⟨h, false⟩ => some (h, { s with handles := s.handles.erase k })
      | _ => none
  | .put k h, _ =>
      match s.handles.lookup k with
      | none => some ((), { s with handles := s.handles.insert k ⟨h, false⟩ })
      | some _ => none
  | .replace k k' h, _ =>
      match (s.handles.erase k).lookup k' with
      | none => some ((), { s with handles := (s.handles.erase k).insert k' ⟨h, false⟩ })
      | some _ => none
  | .incref n, _ => some ((s.node n).info.name, s.set n ((s.node n).addRef 1))
  | .decr n, _ => some ((s.node n).nref - 1, s.set n ((s.node n).addRef (-1)))
  | .children n, env => some ((s.node n).children.map fun m => (env.order (values m)).1, s)
  | .drop n, _ => some ((), s.set n ((s.node n).withChildren none))
  | .lookup n name, _ => some (s.entry n name, s)
  | .link p info, _ =>
      match (s.node p).children with
      | none => some (.error (.other (lit "not a directory.")), s)
      | some m =>
          match m.lookup info.name with
          | some _ => some (.error (.other (lit "duplicate file name")), s)
          | none => some (.ok s.next, s.linkNew p m info)
  | .unlink p name _, _ =>
      match (s.node p).children with
      | none => some (some (.other (lit "not a directory.")), s)
      | some m =>
          match m.lookup name with
          | none => some (some (.other (lit "not found")), s)
          | some _ => some (none, s.set p ((s.node p).withChildren (some (m.erase name))))
  | .info n, _ => some ((s.node n).info, s)
  | .list n, env =>
      if (s.node n).isDir then
        let files := (s.node n).children.elim [] fun m => (env.order (values m)).1
        some (.ok (files.map fun c => (s.node c).info), s)
      else some (.error (.rerror (lit "not a directory")), s)
  | .wstat n dir, _ => some (((s.node n).wstat dir).1, s.set n ((s.node n).wstat dir).2)
  | .read n len offset, _ => some ((s.node n).read len offset, s)
  | .write n p offset, _ =>
      match (s.node n).write p offset with
      | none => some (none, s)
      | some (r, f) => some (some r, s.set n f)
  | .setFile k n, _ => some ((), { s with files := Function.update s.files k (some n) })
  | .getFile k, _ => some (s.files k, s)
  | .nextPath, _ => some (s.lastpath + 1, { s with lastpath := s.lastpath + 1 })
  | .now, env => some (env.now, s)

abbrev M := Prog Cmd Cmd.Res

abbrev issue (c : Cmd) : M c.Res := Prog.issue c

/-! ## Operations -/

/-- A loop over nodes. -/
def each {α : Type} (f : Nat → M α) : List Nat → M (List α)
  | [] => return []
  | n :: ns => do
      let a ← f n
      return a :: (← each f ns)

def decref : Nat → Nat → M Int
  | 0, _ => .crash
  | fuel + 1, n => do
      let nref : Int ← issue (.decr n)
      if nref = 0 then
        match ← issue (.children n) with
        | none => return nref
        | some cs =>
            let _ ← each (decref fuel) cs
            issue (.drop n)
            return nref
      else return nref

def attach (k : Key) (uname : Bytes) : M Unit := do
  let _ ← issue (.incref 0)
  issue (.put k ⟨lit "/", 0, 0, uname, []⟩)

/-- `Clunk` of a handle that the client has given up. -/
def release (fuel : Nat) (h : Handle) : M Unit := do
  let _ ← each (decref fuel) (h.ent :: h.parents.reverse)
  return ()

def clunk (fuel : Nat) (k : Key) : M (Option Err) := do
  let h : Handle ← issue (.consume k)
  release fuel h
  return none

/-- `Remove` but for the deferred `Clunk`. -/
def unlinkEnt (fuel : Nat) (h : Handle) : M (Option Err) := do
  match h.parents.getLast? with
  | none => return some (.rerror (lit "cannot remove root"))
  | some p =>
      let info : Dir ← issue (.info h.ent)
      match ← issue (.unlink p info.name h.ent) with
      | some err => return some err
      | none =>
          let _ ← decref fuel h.ent
          return none

def remove (fuel : Nat) (k : Key) : M (Option Err) := do
  let h : Handle ← issue (.consume k)
  let err ← unlinkEnt fuel h
  release fuel h
  return err

/-- `FileEnt.Walk`. -/
def walkDown (ref : Nat) : List Bytes → M (List Nat)
  | [] => return []
  | name :: names => do
      match ← issue (.lookup ref name) with
      | none => return []
      | some c => return c :: (← walkDown c names)

/-- The number of leading `".."`. -/
def ndel (names : List Bytes) : Nat := (names.takeWhile (· = lit "..")).length

/-- What the nodes on the way to the end of a walk are, from the root down: the
parents that are left, the node where it turns, and those below. -/
def newChain (h : Handle) (names : List Bytes) (below : List Nat) : List Nat :=
  h.chain.take (h.parents.length - ndel names + 1) ++ below

/-- `FileHandle.Walk` between `WalkName` and the return.  With the qids comes
whether there is a new handle. -/
def walkFrom (h : Handle) (k' : Key) (newpath : Bytes) (names : List Bytes) :
    M (List Qid × Bool × Option Err) := do
  if ndel names > h.parents.length then
    return ([], false, some (.rerror (lit "invalid path")))
  let ref := h.chain.getD (h.parents.length - ndel names) 0
  let below ← walkDown ref (names.drop (ndel names))
  let ans := h.parents.reverse.take (ndel names) ++ below
  if names ≠ [] ∧ ans = [] then return ([], false, some .notfound)
  if ans.length = names.length then
    let chain := newChain h names below
    let _ ← each (fun p => issue (.incref p)) chain
    let infos : List Dir ← each (fun a => issue (.info a)) ans
    issue (.put k' ⟨newpath, 0, chain.getLastD 0, h.uname, chain.dropLast⟩)
    return (infos.map Dir.qid, true, none)
  else
    let infos : List Dir ← each (fun a => issue (.info a)) ans
    return (infos.map Dir.qid, false, none)

/-- `FileHandle.Walk`, of a handle that is locked. -/
def walkLocked (h : Handle) (k' : Key) (names : List Bytes) : M (List Qid × Bool × Option Err) :=
  match walkName h.path names with
  | .error err => return ([], false, some err)
  | .ok newpath => walkFrom h k' newpath names

def walk (k k' : Key) (names : List Bytes) : M (List Qid × Bool × Option Err) := do
  let h : Handle ← issue (.lock k)
  let r ← walkLocked h k' names
  issue (.unlock k)
  return r

/-- `0022`. -/
def umask : UInt32 := 0o022

/-- `fSession.newDir`. -/
def newFile (uname fname : Bytes) (mode : UInt32) : M Dir := do
  let path : UInt64 ← issue .nextPath
  let now : Time ← issue .now
  return newDir path fname uname (mode ^^^ (mode &&& umask)) now

def create (k k' : Key) (fname : Bytes) (perm : UInt32) (mode : Flag) : M (Option Err) := do
  let h : Handle ← issue (.lock k)
  match createName h.path fname with
  | .error err =>
      issue (.unlock k)
      return some err
  | .ok path =>
      let dir ← newFile h.uname fname perm
      match ← issue (.link h.ent dir) with
      | .error err =>
          issue (.unlock k)
          return some err
      | .ok ent =>
          let _ ← issue (.incref ent)
          issue (.setFile k' ent)
          issue (.replace k k' ⟨path, mode, ent, h.uname, h.chain⟩)
          return none

/-- What only looks at a handle. -/
def withHandle {α : Type} (k : Key) (body : Handle → M α) : M α := do
  let h : Handle ← issue (.lock k)
  let a ← body h
  issue (.unlock k)
  return a

def stat (k : Key) : M Dir := withHandle k fun h => issue (.info h.ent)

def qid (k : Key) : M Qid := withHandle k fun h => do
  let info : Dir ← issue (.info h.ent)
  return info.qid

def wstat (k : Key) (dir : Dir) : M (Option Err) := withHandle k fun h => issue (.wstat h.ent dir)

def openDir (k : Key) : M (Except Err (List Dir)) := withHandle k fun h => do
  let up : Dir ← issue (.info (h.parents.getLastD h.ent))
  match ← issue (.list h.ent) with
  | .error err => return .error err
  | .ok dirs => return .ok (withName (lit "..") up :: dirs)

/-- `Open`; the file gets the key `k'`. -/
def «open» (k k' : Key) : M Unit := withHandle k fun h => issue (.setFile k' h.ent)

/-- A method of a `File`; `none` is a panic. -/
def onFile {α : Type} (k : Key) (body : Nat → M (Option α)) : M α := do
  match ← issue (.getFile k) with
  | none => .crash
  | some n =>
      match ← body n with
      | none => .crash
      | some a => return a

def read (k : Key) (len : Nat) (offset : Int64) : M (Bytes × Option Err) :=
  onFile k fun n => issue (.read n len offset)

def write (k : Key) (p : Bytes) (offset : Int64) : M (Nat × Option Err) :=
  onFile k fun n => issue (.write n p offset)

/-- A call of a method of the server, of a handle or of a file. -/
inductive Op where
  | attach (k : Key) (uname : Bytes)
  | walk (k k' : Key) (names : List Bytes)
  | create (k k' : Key) (name : Bytes) (perm : UInt32) (mode : Flag)
  | clunk (k : Key)
  | remove (k : Key)
  | qid (k : Key)
  | stat (k : Key)
  | wstat (k : Key) (dir : Dir)
  | openDir (k : Key)
  | open (k k' : Key)
  | read (k : Key) (len : Nat) (offset : Int64)
  | write (k : Key) (p : Bytes) (offset : Int64)

inductive Ret where
  | done (err : Option Err)
  | walked (qids : List Qid) (complete : Bool) (err : Option Err)
  | qid (q : Qid)
  | dir (dir : Dir)
  | dirs (dirs : Except Err (List Dir))
  | data (data : Bytes) (err : Option Err)
  | count (n : Nat) (err : Option Err)

def Op.prog (fuel : Nat) : Op → M Ret
  | attach k uname => do
      Ramfs.attach k uname
      return .done none
  | walk k k' names => do
      let (qids, complete, err) ← Ramfs.walk k k' names
      return .walked qids complete err
  | create k k' name perm mode => return .done (← Ramfs.create k k' name perm mode)
  | clunk k => return .done (← Ramfs.clunk fuel k)
  | remove k => return .done (← Ramfs.remove fuel k)
  | qid k => return .qid (← Ramfs.qid k)
  | stat k => return .dir (← Ramfs.stat k)
  | wstat k dir => return .done (← Ramfs.wstat k dir)
  | openDir k => return .dirs (← Ramfs.openDir k)
  | «open» k k' => do
      Ramfs.open k k'
      return .done none
  | read k len offset => do
      let (data, err) ← Ramfs.read k len offset
      return .data data err
  | write k p offset => do
      let (n, err) ← Ramfs.write k p offset
      return .count n err

end P9p.Ramfs
