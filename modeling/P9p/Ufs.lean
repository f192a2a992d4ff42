/-
# The host's files (`ufs/`)

`ufs` serves a directory of the host.  A `FileRef` has an internal path, which
begins with a slash; `fullPath` puts the base directory in front of it.  Each
operation is a program of calls to the host, which may answer anything.

    stat, readDir                     what is there
    openFile, close                   files
    mkdir, remove, rename
    chmod, chown, truncate
    lookupUser, lookupGroup           no path

**Theorem** (`confined`).  Whatever the names in the requests, and whatever the
host answers, every internal path is a list of plain elements, and every path
that the host is given is the base directory or below it.

`fullPath` checks its argument, and a `FileRef` gets its path from an argument of
`fullPath` that passed.  In `WStat`, an absolute name is replaced by the empty
string before it is cleaned, and so it never passes.

`Read` and `Write` of an open file are left out; they have no path.
-/
import P9p.Lib.Prog
import P9p.Path.Resolve

namespace P9p.Ufs

open Conc SlashPath

def dmsymlink : UInt32 := 0x02000000
def dmdevice : UInt32 := 0x00800000
def dmnamedpipe : UInt32 := 0x00200000
def otrunc : Flag := 0x10

/-! ## The host -/

/-- `os.FileInfo`, as far as it is used. -/
structure FileInfo where
  ino : UInt64
  modTime : Time
  accessTime : Time
  name : Bytes
  perm : UInt32
  isDir : Bool
  size : Int64

/-- `uint32(t.UnixNano() / 1000000)`. -/
def milliseconds (t : Time) : UInt32 :=
  UInt32.ofInt ((Int64.ofInt (t.unix * 1000000000 + t.nsec)).toInt.tdiv 1000000)

def dirFromInfo (info : FileInfo) : Dir :=
  { Dir.zero with
    qid := ⟨if info.isDir then qtdir else 0, milliseconds info.modTime, info.ino⟩
    name := info.name
    mode := (info.perm &&& 0o777) ||| if info.isDir then dmdir else 0
    length := info.size.toUInt64
    accessTime := info.accessTime
    modTime := info.modTime
    muid := lit "none" }

inductive Access where
  | rdonly
  | wronly
  | rdwr
  deriving DecidableEq, Repr

structure OFlags where
  access : Access
  trunc : Bool
  create : Bool
  deriving DecidableEq, Repr

def oflags (mode : Flag) : OFlags where
  access :=
    if mode &&& 3 = ordwr then .rdwr
    else if mode &&& 3 = owrite then .wronly
    else .rdonly
  trunc := mode &&& otrunc ≠ 0
  create := false

/-- A call to the host.  `lookupUser` stands for `user.Lookup` together with the
`strconv.Atoi` of what it finds, `lookupGroup` likewise. -/
inductive Cmd where
  | stat (p : Bytes)
  | readDir (p : Bytes)
  | openFile (p : Bytes) (flags : OFlags) (perm : UInt32)
  | close (file : Nat)
  | mkdir (p : Bytes) (perm : UInt32)
  | remove (p : Bytes)
  | rename (p q : Bytes)
  | chmod (p : Bytes) (perm : UInt32)
  | chown (p : Bytes) (uid gid : Int)
  | truncate (p : Bytes) (length : Int64)
  | lookupUser (name : Bytes)
  | lookupGroup (name : Bytes)

/-- The paths that the host is given. -/
def Cmd.paths : Cmd → List Bytes
  | stat p | readDir p | openFile p _ _ | mkdir p _ | remove p | chmod p _ | chown p _ _
  | truncate p _ => [p]
  | rename p q => [p, q]
  | close _ | lookupUser _ | lookupGroup _ => []

def Cmd.Res : Cmd → Type
  | stat _ => Except Err FileInfo
  | readDir _ => Except Err (List (Except Err FileInfo))
  | openFile _ _ _ => Except Err Nat
  | lookupUser _ | lookupGroup _ => Except Err Int
  | _ => Option Err

abbrev M := Prog Cmd Cmd.Res

abbrev issue (c : Cmd) : M c.Res := Prog.issue c

/-! ## Paths -/

def backslash : UInt8 := 92

def invalidPath : Err := .rerror (lit "Invalid path")

/-- `fServer.fullPath`. -/
def fullPath (base p : Bytes) : Except Err Bytes :=
  if ¬ isAbs p ∨ backslash ∈ p then .error invalidPath
  else if clean p ≠ p then .error invalidPath
  else .ok (join [base, p])

/-- `file` is the open file. -/
structure FileRef where
  path : Bytes
  info : Dir
  file : Option Nat

def FileRef.fullPath (base : Bytes) (ref : FileRef) : Bytes := join [base, ref.path]

def newRef (base p : Bytes) : M (Except Err FileRef) :=
  match fullPath base p with
  | .error err => return .error err
  | .ok fpath => do
      match ← issue (.stat fpath) with
      | .error err => return .error err
      | .ok info => return .ok ⟨p, dirFromInfo info, none⟩

/-! ## Operations -/

namespace FileRef

def isDir (ref : FileRef) : Bool := ref.info.mode &&& dmdir > 0

def openDir (base : Bytes) (ref : FileRef) : M (Except Err (List Dir)) :=
  if !ref.isDir then return .error (.rerror (lit "not a directory"))
  else do
    match ← issue (.readDir (ref.fullPath base)) with
    | .error err => return .error err
    | .ok files => return .ok (files.filterMap fun info => info.toOption.map dirFromInfo)

def clunk (ref : FileRef) : M (Option Err) :=
  match ref.file with
  | none => return none
  | some file => issue (.close file)

def remove (base : Bytes) (ref : FileRef) : M (Option Err) := do
  let _ ← ref.clunk
  if ref.path = lit "/" ∨ ref.path = lit "\\" then
    return some (.rerror (lit "cannot remove root"))
  else issue (.remove (ref.fullPath base))

def walk (base : Bytes) (ref : FileRef) (names : List Bytes) :
    M (List Qid × Option FileRef × Option Err) := do
  if names = [] then
    match ← newRef base ref.path with
    | .error err => return ([], none, some err)
    | .ok next => return ([], some next, none)
  else
    match walkName ref.path names with
    | .error err => return ([], none, some err)
    | .ok newpath =>
        match ← newRef base newpath with
        | .error err => return ([], none, some err)
        | .ok next =>
            return (List.replicate (names.length - 1) ⟨0, 0, 0⟩ ++ [next.info.qid], some next, none)

end FileRef

/-- What `Create` makes at `newpath`.  For a link or a pipe it makes nothing. -/
def createFile (newpath : Bytes) (perm : UInt32) (mode : Flag) : M (Except Err (Option Nat)) := do
  if perm &&& dmdir ≠ 0 then
    match ← issue (.mkdir newpath (perm &&& 0o777)) with
    | some err => return .error err
    | none => return .ok none
  else if perm &&& dmsymlink ≠ 0 then return .ok none
  else if perm &&& dmnamedpipe ≠ 0 then return .ok none
  else if perm &&& dmdevice ≠ 0 then return .error (.rerror (lit "not implemented"))
  else
    match ← issue (.openFile newpath { oflags mode with create := true } (perm &&& 0o777)) with
    | .error err => return .error err
    | .ok file => return .ok (some file)

/-- `file.Close()`, if there is a file. -/
def closeFile : Option Nat → M Unit
  | none => return ()
  | some file => do
      let _ ← issue (.close file)
      return ()

namespace FileRef

def create (base : Bytes) (ref : FileRef) (name : Bytes) (perm : UInt32) (mode : Flag) :
    M (Option FileRef × Option Err) := do
  match createName ref.path name with
  | .error err => return (none, some err)
  | .ok newrel =>
      match Ufs.fullPath base newrel with
      | .error err => return (none, some err)
      | .ok newpath =>
          match ← createFile newpath perm mode with
          | .error err => return (none, some err)
          | .ok file =>
              match ← newRef base newrel with
              | .error err =>
                  closeFile file
                  return (none, some err)
              | .ok ent => return (some { ent with file }, none)

/-- `WStat`: the mode. -/
def setMode (base : Bytes) (ref : FileRef) (dir : Dir) : M (Option Err) :=
  if dir.mode ≠ 0xFFFFFFFF then issue (.chmod (ref.fullPath base) (dir.mode &&& 0o777))
  else return none

/-- `WStat`: the owner. -/
def setOwner (base : Bytes) (ref : FileRef) (dir : Dir) : M (Option Err) :=
  if dir.uid ≠ [] ∨ dir.gid ≠ [] then do
    match ← issue (.lookupUser dir.uid) with
    | .error err => return some err
    | .ok uid =>
        match ← issue (.lookupGroup dir.gid) with
        | .error err => return some err
        | .ok gid => issue (.chown (ref.fullPath base) uid gid)
  else return none

/-- The new internal path.  Of an absolute name nothing is used. -/
def newName (ref : FileRef) (name : Bytes) : Bytes :=
  if isAbs name then clean [] else join [SlashPath.dir ref.path, name]

/-- `WStat`: the name. -/
def setName (base : Bytes) (ref : FileRef) (dir : Dir) : M (Except Err FileRef) :=
  if dir.name ≠ [] then
    match Ufs.fullPath base (ref.newName dir.name) with
    | .error err => return .error err
    | .ok newpath => do
        match ← issue (.rename (ref.fullPath base) newpath) with
        | some err => return .error err
        | none => return .ok { ref with path := ref.newName dir.name }
  else return .ok ref

/-- `WStat`: the length. -/
def setLength (base : Bytes) (ref : FileRef) (dir : Dir) : M (Option Err) :=
  if dir.length ≠ 0xFFFFFFFFFFFFFFFF then
    issue (.truncate (ref.fullPath base) dir.length.toInt64)
  else return none

/-- `WStat`, with the `FileRef` as it leaves it. -/
def wstat (base : Bytes) (ref : FileRef) (dir : Dir) : M (Option Err × FileRef) := do
  match ← ref.setMode base dir with
  | some err => return (some err, ref)
  | none =>
      match ← ref.setOwner base dir with
      | some err => return (some err, ref)
      | none =>
          match ← ref.setName base dir with
          | .error err => return (some err, ref)
          | .ok ref => return (← ref.setLength base dir, ref)

/-- `Open`, with the `FileRef` as it leaves it. -/
def «open» (base : Bytes) (ref : FileRef) (mode : Flag) : M (Option Err × FileRef) := do
  match ← issue (.openFile (ref.fullPath base) (oflags mode) 0) with
  | .error err => return (some err, ref)
  | .ok file => return (none, { ref with file := some file })

end FileRef

/-- A call of a method; a `FileRef` is known by the order in which it was made. -/
inductive Op where
  | attach
  | walk (i : Nat) (names : List Bytes)
  | create (i : Nat) (name : Bytes) (perm : UInt32) (mode : Flag)
  | open (i : Nat) (mode : Flag)
  | openDir (i : Nat)
  | stat (i : Nat)
  | wstat (i : Nat) (dir : Dir)
  | remove (i : Nat)
  | clunk (i : Nat)

inductive Ret where
  | done (err : Option Err)
  | walked (qids : List Qid) (err : Option Err)
  | dir (dir : Dir)
  | dirs (dirs : Except Err (List Dir))

def onRef (refs : List FileRef) (i : Nat) (body : FileRef → M (Ret × List FileRef)) :
    M (Ret × List FileRef) :=
  match refs[i]? with
  | none => .crash
  | some ref => body ref

/-- The program of an operation, which returns the `FileRef`s as it leaves
them. -/
def Op.prog (base : Bytes) (refs : List FileRef) : Op → M (Ret × List FileRef)
  | attach => do
      match ← newRef base (lit "/") with
      | .error err => return (.done (some err), refs)
      | .ok ref => return (.done none, refs ++ [ref])
  | walk i names => onRef refs i fun ref => do
      let (qids, next, err) ← ref.walk base names
      return (.walked qids err, refs ++ next.toList)
  | create i name perm mode => onRef refs i fun ref => do
      let (ent, err) ← ref.create base name perm mode
      return (.done err, refs ++ ent.toList)
  | «open» i mode => onRef refs i fun ref => do
      let (err, ref) ← ref.open base mode
      return (.done err, refs.set i ref)
  | openDir i => onRef refs i fun ref => return (.dirs (← ref.openDir base), refs)
  | stat i => onRef refs i fun ref => return (.dir ref.info, refs)
  | wstat i dir => onRef refs i fun ref => do
      let (err, ref) ← ref.wstat base dir
      return (.done err, refs.set i ref)
  | remove i => onRef refs i fun ref => return (.done (← ref.remove base), refs)
  | clunk i => onRef refs i fun ref => return (.done (← ref.clunk), refs)

/-! ## Runs -/

/-- What the host answers. -/
abbrev Host := (c : Cmd) → c.Res

/-- All that is left of a call is that it was made. -/
def exec (log : List Cmd) (_ : Nat) (c : Cmd) (host : Host) : Option (c.Res × List Cmd) :=
  some (host c, log ++ [c])

structure State where
  refs : List FileRef
  log : List Cmd

/-- One operation, with the answers of the host in order. -/
def step (base : Bytes) (s : State) (act : Op × (Nat → Host)) : Option State :=
  match run exec 0 act.2 (act.1.prog base s.refs) s.log 0 with
  | .returned a log _ => some ⟨a.2, log⟩
  | _ => none

/-! ## Confinement -/

/-- A valid internal path: a slash, and elements separated by slashes. -/
def Internal (p : Bytes) : Prop := ∃ es, (∀ e ∈ es, Element e) ∧ p = root es

/-- `p` is the base directory or below it. -/
def Within (base p : Bytes) : Prop :=
  ∃ es, (∀ e ∈ es, Element e) ∧ p = root (elements base ++ es)

/-- A full path that is cleaned. -/
structure IsBase (base : Bytes) : Prop where
  abs : isAbs base
  clean : clean base = base

/-- Nothing is asked of the host but within the base directory, and `Q` holds of
the result. -/
abbrev Confined {α : Type} (base : Bytes) (Q : α → Prop) (p : M α) : Prop :=
  Safe (fun (_ : Unit) c => ∀ q ∈ c.paths, Within base q) (fun _ _ _ _ => True)
    (fun a _ => Q a) p ()

section Confined

variable {base p q : Bytes} {ref : FileRef}

theorem IsBase.root_elements (hb : IsBase base) : root (elements base) = base := by
  have h := hb.clean
  rwa [SlashPath.clean, if_pos hb.abs] at h

theorem Internal.within (hb : IsBase base) (h : Internal p) : Within base (join [base, p]) := by
  obtain ⟨es, hes, rfl⟩ := h
  refine ⟨es, hes, ?_⟩
  have hjoin := join_root (plain_elements hb.abs) fun e he => (hes e he).plain
  rwa [hb.root_elements] at hjoin

theorem fullPath_ok (hb : IsBase base) (h : fullPath base p = .ok q) :
    Internal p ∧ Within base q := by
  unfold fullPath at h
  split at h
  · cases h
  · rename_i hp
    obtain ⟨habs, hback⟩ := not_or.mp hp
    split at h
    · cases h
    · rename_i hclean
      cases h
      obtain ⟨es, hes, hroot⟩ := eq_root_of_clean (Decidable.not_not.mp habs) (not_not.mp hclean)
      have hint : Internal p := by
        refine ⟨es, fun e he => ?_, hroot⟩
        have hnone : backslash ∉ e :=
          fun hmem => hback (hroot ▸ mem_root.mpr (Or.inr ⟨e, he, hmem⟩))
        obtain ⟨hnil, hdot, hdotdot, hslash⟩ := hes e he
        exact ⟨hnil, hdot, hdotdot, separator_iff.mpr ⟨hnone, hslash⟩⟩
      exact ⟨hint, hint.within hb⟩

theorem confined_cmd {α : Type} {Q : α → Prop} {c : Cmd} {k : c.Res → M α} {ps : List Bytes}
    (hc : c.paths = ps) (hps : ∀ q ∈ ps, Within base q) (hk : ∀ r, Confined base Q (k r)) :
    Confined base Q (issue c >>= k) :=
  Safe.cmd (hc ▸ hps) fun r _ _ => hk r

theorem confined_issue {c : Cmd} {Q : c.Res → Prop} {ps : List Bytes} (hc : c.paths = ps)
    (hps : ∀ q ∈ ps, Within base q) (hQ : ∀ r, Q r) : Confined base Q (issue c) :=
  Safe.issue (hc ▸ hps) fun r _ _ => hQ r

theorem confined_ite {α : Type} {Q : α → Prop} {c : Prop} [Decidable c] {p p' : M α}
    (h : Confined base Q p) (h' : Confined base Q p') : Confined base Q (if c then p else p') := by
  split
  · exact h
  · exact h'

/-- The path of a `FileRef`, as an argument. -/
theorem FileRef.within (hb : IsBase base) (href : Internal ref.path) :
    ∀ q ∈ [ref.fullPath base], Within base q :=
  List.forall_mem_singleton.mpr (href.within hb)

theorem newRef_confined (hb : IsBase base) (p : Bytes) :
    Confined base (fun r => ∀ ref, r = .ok ref → Internal ref.path) (newRef base p) := by
  unfold newRef
  split
  · exact nofun
  · rename_i fpath hpath
    obtain ⟨hint, hwithin⟩ := fullPath_ok hb hpath
    refine confined_cmd rfl (List.forall_mem_singleton.mpr hwithin) ?_
    rintro (err | info)
    · exact nofun
    · rintro _ ⟨⟩
      exact hint

theorem FileRef.openDir_confined (hb : IsBase base) (href : Internal ref.path) :
    Confined base (fun _ => True) (ref.openDir base) := by
  unfold FileRef.openDir
  split
  · trivial
  · refine confined_cmd rfl (ref.within hb href) ?_
    rintro (err | files) <;> trivial

theorem FileRef.clunk_confined : Confined base (fun _ => True) ref.clunk := by
  unfold FileRef.clunk
  split
  · trivial
  · exact confined_issue rfl (List.forall_mem_nil _) fun _ => trivial

theorem FileRef.remove_confined (hb : IsBase base) (href : Internal ref.path) :
    Confined base (fun _ => True) (ref.remove base) := by
  refine Safe.bind FileRef.clunk_confined fun _ _ _ => ?_
  exact confined_ite trivial (confined_issue rfl (ref.within hb href) fun _ => trivial)

theorem FileRef.walk_confined (hb : IsBase base) (names : List Bytes) :
    Confined base (fun r => ∀ next ∈ r.2.1, Internal next.path) (ref.walk base names) := by
  unfold FileRef.walk
  split
  · refine Safe.bind (newRef_confined hb ref.path) ?_
    rintro (err | next) _ hnext
    · exact nofun
    · rintro _ ⟨⟩
      exact hnext next rfl
  · split
    · exact nofun
    · rename_i newpath _
      refine Safe.bind (newRef_confined hb newpath) ?_
      rintro (err | next) _ hnext
      · exact nofun
      · rintro _ ⟨⟩
        exact hnext next rfl

theorem createFile_confined (hq : ∀ q' ∈ [q], Within base q') (perm : UInt32) (mode : Flag) :
    Confined base (fun _ => True) (createFile q perm mode) := by
  unfold createFile
  split
  · refine confined_cmd rfl hq ?_
    rintro (_ | err) <;> trivial
  · split
    · trivial
    · split
      · trivial
      · split
        · trivial
        · refine confined_cmd rfl hq ?_
          rintro (err | file) <;> trivial

theorem closeFile_confined (file : Option Nat) :
    Confined base (fun _ => True) (closeFile file) := by
  cases file with
  | none => trivial
  | some file => exact confined_cmd rfl (List.forall_mem_nil _) fun _ => trivial

theorem FileRef.create_confined (hb : IsBase base) (name : Bytes) (perm : UInt32) (mode : Flag) :
    Confined base (fun r => ∀ ent ∈ r.1, Internal ent.path) (ref.create base name perm mode) := by
  unfold FileRef.create
  split
  · exact nofun
  · rename_i newrel _
    split
    · exact nofun
    · rename_i newpath hpath
      refine Safe.bind (createFile_confined
        (List.forall_mem_singleton.mpr (fullPath_ok hb hpath).2) perm mode) ?_
      rintro (err | file) _ -
      · exact nofun
      · refine Safe.bind (newRef_confined hb newrel) ?_
        rintro (err | ent) _ hent
        · exact Safe.bind (closeFile_confined file) fun _ _ _ => nofun
        · rintro _ ⟨⟩
          exact hent ent rfl

theorem FileRef.setMode_confined (hb : IsBase base) (href : Internal ref.path) (dir : Dir) :
    Confined base (fun _ => True) (ref.setMode base dir) := by
  exact confined_ite (confined_issue rfl (ref.within hb href) fun _ => trivial) trivial

theorem FileRef.setOwner_confined (hb : IsBase base) (href : Internal ref.path) (dir : Dir) :
    Confined base (fun _ => True) (ref.setOwner base dir) := by
  unfold FileRef.setOwner
  split
  · refine confined_cmd rfl (List.forall_mem_nil _) ?_
    rintro (err | uid)
    · trivial
    · refine confined_cmd rfl (List.forall_mem_nil _) ?_
      rintro (err | gid)
      · trivial
      · exact confined_issue rfl (ref.within hb href) fun _ => trivial
  · trivial

theorem FileRef.setName_confined (hb : IsBase base) (href : Internal ref.path) (dir : Dir) :
    Confined base (fun r => ∀ ref', r = .ok ref' → Internal ref'.path) (ref.setName base dir) := by
  unfold FileRef.setName
  split
  · split
    · exact nofun
    · rename_i newpath hpath
      obtain ⟨hint, hwithin⟩ := fullPath_ok hb hpath
      refine confined_cmd rfl (List.forall_mem_cons.mpr
        ⟨href.within hb, List.forall_mem_singleton.mpr hwithin⟩) ?_
      rintro (_ | err)
      · rintro _ ⟨⟩
        exact hint
      · exact nofun
  · rintro _ ⟨⟩
    exact href

theorem FileRef.setLength_confined (hb : IsBase base) (href : Internal ref.path) (dir : Dir) :
    Confined base (fun _ => True) (ref.setLength base dir) := by
  exact confined_ite (confined_issue rfl (ref.within hb href) fun _ => trivial) trivial

theorem FileRef.wstat_confined (hb : IsBase base) (href : Internal ref.path) (dir : Dir) :
    Confined base (fun r => Internal r.2.path) (ref.wstat base dir) := by
  refine Safe.bind (ref.setMode_confined hb href dir) ?_
  rintro (_ | err) _ -
  · refine Safe.bind (ref.setOwner_confined hb href dir) ?_
    rintro (_ | err) _ -
    · refine Safe.bind (ref.setName_confined hb href dir) ?_
      rintro (err | ref') _ href'
      · exact href
      · exact Safe.bind (ref'.setLength_confined hb (href' ref' rfl) dir) fun _ _ _ =>
          href' ref' rfl
    · exact href
  · exact href

theorem FileRef.open_confined (hb : IsBase base) (href : Internal ref.path) (mode : Flag) :
    Confined base (fun r => Internal r.2.path) (ref.open base mode) := by
  refine confined_cmd rfl (ref.within hb href) ?_
  rintro (err | file) <;> exact href

/-! ## Every run -/

variable {refs : List FileRef}

def AllInternal (refs : List FileRef) : Prop := ∀ ref ∈ refs, Internal ref.path

theorem AllInternal.append {new : Option FileRef} (h : AllInternal refs)
    (hnew : ∀ ref ∈ new, Internal ref.path) : AllInternal (refs ++ new.toList) := by
  intro ref hmem
  rcases List.mem_append.mp hmem with hmem | hmem
  · exact h ref hmem
  · exact hnew ref (Option.mem_toList.mp hmem)

theorem AllInternal.set {ref : FileRef} (h : AllInternal refs) (href : Internal ref.path)
    (i : Nat) :
    AllInternal (refs.set i ref) := by
  intro ref' hmem
  rcases List.mem_or_eq_of_mem_set hmem with hmem | rfl
  · exact h ref' hmem
  · exact href

theorem onRef_confined {Q : Ret × List FileRef → Prop} {body : FileRef → M (Ret × List FileRef)}
    (h : AllInternal refs) (i : Nat)
    (hbody : ∀ ref, Internal ref.path → Confined base Q (body ref)) :
    Confined base Q (onRef refs i body) := by
  unfold onRef
  split
  · trivial
  · rename_i ref hi
    exact hbody ref (h ref (List.mem_of_getElem? hi))

theorem Op.prog_confined (hb : IsBase base) (h : AllInternal refs) (op : Op) :
    Confined base (fun a => AllInternal a.2) (op.prog base refs) := by
  cases op with
  | attach =>
      refine Safe.bind (newRef_confined hb _) ?_
      rintro (err | ref) _ href
      · exact h
      · have hnew : ∀ r ∈ some ref, Internal r.path :=
          fun _ hmem => Option.some.inj hmem ▸ href ref rfl
        exact h.append hnew
  | walk i names =>
      exact onRef_confined h i fun ref _ => Safe.bind (ref.walk_confined hb names) fun _ _ =>
        h.append
  | create i name perm mode =>
      exact onRef_confined h i fun ref _ =>
        Safe.bind (ref.create_confined hb name perm mode) fun _ _ => h.append
  | «open» i mode =>
      exact onRef_confined h i fun ref href =>
        Safe.bind (ref.open_confined hb href mode) fun _ _ href' => h.set href' i
  | openDir i =>
      exact onRef_confined h i fun ref href =>
        Safe.bind (ref.openDir_confined hb href) fun _ _ _ => h
  | stat i => exact onRef_confined h i fun ref href => h
  | wstat i dir =>
      exact onRef_confined h i fun ref href =>
        Safe.bind (ref.wstat_confined hb href dir) fun _ _ href' => h.set href' i
  | remove i =>
      exact onRef_confined h i fun ref href =>
        Safe.bind (ref.remove_confined hb href) fun _ _ _ => h
  | clunk i => exact onRef_confined h i fun ref href => Safe.bind ref.clunk_confined fun _ _ _ => h

/-- Nothing has left the base directory. -/
structure State.Confined (base : Bytes) (s : State) : Prop where
  refs : ∀ ref ∈ s.refs, Internal ref.path
  log : ∀ c ∈ s.log, ∀ q ∈ c.paths, Within base q

theorem State.Confined.step {s s' : State} {act : Op × (Nat → Host)} (hb : IsBase base)
    (h : s.Confined base) (hstep : step base s act = some s') : s'.Confined base := by
  obtain ⟨op, env⟩ := act
  unfold Ufs.step at hstep
  let I : List Cmd → Unit → Prop := fun log _ => ∀ c ∈ log, ∀ q ∈ c.paths, Within base q
  have hmeets : (run exec 0 env (op.prog base s.refs) s.log 0).Meets
      (fun a log => ∃ o, AllInternal a.2 ∧ I log o)
      (fun c log => ∃ o, (∀ q ∈ c.paths, Within base q) ∧ I log o) := by
    refine Safe.run (I := I) ?_ (op.prog_confined hb h.refs) h.log 0
    rintro log _ _ c e r hlog hpre ⟨⟩
    exact ⟨(), trivial, List.forall_mem_append.mpr ⟨hlog, List.forall_mem_singleton.mpr hpre⟩⟩
  split at hstep
  · rename_i a log n hrun
    cases hstep
    rw [hrun] at hmeets
    obtain ⟨_, hrefs, hlog⟩ := hmeets
    exact ⟨hrefs, hlog⟩
  · cases hstep

/-- Whatever is asked and whatever the host answers, nothing leaves the base
directory. -/
theorem confined (hb : IsBase base) (acts : List (Op × (Nat → Host))) {s : State}
    (hrun : Conc.exec (step base) ⟨[], []⟩ acts = some s) : s.Confined base := by
  refine reachable_invariant (fun h hstep => h.step hb hstep) ?_ ⟨acts, hrun⟩
  exact ⟨List.forall_mem_nil _, List.forall_mem_nil _⟩

end Confined

/-- A host on which every call succeeds, and everything is a file. -/
def obliging : Host
  | .stat _ => (.ok ⟨0, Time.zero, Time.zero, [], 0o644, false, 0⟩ : Except Err FileInfo)
  | .readDir _ => (.ok [] : Except Err (List (Except Err FileInfo)))
  | .openFile _ _ _ => (.ok 0 : Except Err Nat)
  | .lookupUser _ | .lookupGroup _ => (.ok 0 : Except Err Int)
  | .close _ | .mkdir _ _ | .remove _ | .rename _ _ | .chmod _ _ | .chown _ _ _ | .truncate _ _ =>
      (none : Option Err)

/-- A request for a new name. -/
def renames (name : Bytes) : Dir :=
  { Dir.zero with mode := 0xFFFFFFFF, length := 0xFFFFFFFFFFFFFFFF, name }

/-- A file is renamed to what should be outside, and to an absolute name. -/
def triesToLeave : List (Op × (Nat → Host)) :=
  [Op.attach, .walk 0 [lit "a", lit "b"], .wstat 1 (renames (lit "../../../etc/passwd")),
    .wstat 1 (renames (lit "/etc/passwd")), .walk 1 [lit "..", lit ".."], .remove 1].map
      fun op => (op, fun _ => obliging)

theorem confined_triesToLeave :
    ∃ s, Conc.exec (step (lit "/srv")) ⟨[], []⟩ triesToLeave = some s ∧
      s.refs.map FileRef.path = [lit "/", lit "/etc/passwd", lit "/"] ∧ s.Confined (lit "/srv") :=
  ⟨_, rfl, rfl, confined ⟨rfl, rfl⟩ triesToLeave rfl⟩

end P9p.Ufs
