/-
# The session without its machinery

What `sfilesys.go` is for, said once more: no `SFid`s behind pointers, no
placeholders, no locking, no cleaning up.  The table maps a fid to what is
stored under it, and an operation is a function of the table and of the file
system (`Op.direct`).

    lookup fid       the entry of a fid that stands for a `Dirent`
    refused fid      why a new fid is not accepted
    assign fid f     store, replace or remove
    ask c            a call to the file system

The function is undefined where the operation does not return.  This happens
if a call panics; if the file system returns a nil `Dirent` from `Attach` and no
error; if `Create` cannot open the directory it has made, since it then waits
for the mutex that it holds; and if the mutex of the fid is lost.  `Attach`
loses the mutex of an `afid` that is bound to a `Dirent` and not open.

**The result** (`session_direct`): from the empty table, any sequence of
operations returns what the functions say, and leaves the table and the file
system as they say; or comes to one that does not return, where the function is
undefined.
-/
import P9p.Lib.Refine
import P9p.Session.Books
import P9p.Session.World

namespace P9p.Session

open Conc

variable {a b : Ret} {newfid : Fid}

/-! ## The functions -/

/-- The table, without the indirection. -/
def Table.slots (s : Table) : Fid → Option SFid := fun fid => (s.refs fid).map s.sfid

/-- What an operation sees of the world. -/
structure View (φ : Type) where
  slots : Fid → Option SFid
  disk : Disk φ
  calls : Nat
  data : Bytes

def World.view {φ : Type} (w : World φ) : View φ := ⟨w.store.slots, w.disk, w.store.calls, w.data⟩

abbrev Direct (φ : Type) := StateT (View φ) Option

namespace Direct

variable {φ α : Type}

/-- The operation does not return. -/
def hang : Direct φ α := fun _ => none

/-- The entry of a fid, with its `Dirent`.  Where the mutex is lost there is no
way past it. -/
def lookup (fid : Fid) : Direct φ (Option (SFid × Nat)) := do
  if fid = noFid then return none
  match (← get).slots fid with
  | none => return none
  | some f => if f.owner.isSome then hang else return f.ent.map (f, ·)

/-- A new fid must not be `NOFID` or in use. -/
def refused (fid : Fid) : Direct φ (Option Err) := do
  if fid = noFid then return some .unknownfid
  match (← get).slots fid with
  | none => return none
  | some _ => return some .dupfid

def assign (fid : Fid) (f : Option SFid) : Direct φ Unit :=
  modify fun v => { v with slots := Function.update v.slots fid f }

section Calls

variable (F : FileSys φ)

def ask (c : Call) : Direct φ c.Res := fun v =>
  match F.reply v.calls c v.disk with
  | none => none
  | some (r, p, disk) =>
      some (c.answer v.calls r, { v with disk, calls := v.calls + 1, data := p })

def isDir (d : Nat) : Direct φ Bool := do
  let q ← ask F (.qid d)
  return q.type &&& qtdir ≠ 0

def ioUnit (f : File) : Direct φ UInt32 := do
  if f.kind = .readdir then return 0
  let n : Int ← ask F (.ioUnit f)
  return UInt32.ofNat (n % 2 ^ 32).toNat

def openEnt (d : Nat) (mode : Flag) : Direct φ (Except Err File) := do
  if ← isDir F d then
    let (dirs, err) ← ask F (.openDir d)
    match err with
    | some err => return .error err
    | none => return .ok dirs
  else
    let (f, err) ← ask F (.open d mode)
    return ensureNonNil f err

def walkEnt (d : Nat) (same : Bool) (names : List Bytes) :
    Direct φ (Except Ret (List Qid × Nat)) := do
  if names = [] then
    if same then return .error (.qids [] none)
    let (_, e, err) ← ask F (.walk d [])
    match ensureNonNil e err with
    | .error err => return .error (.qids [] (some err))
    | .ok d => return .ok ([], d)
  else
    unless ← isDir F d do
      return .error (.qids [] (some (.rerror (lit "not a directory"))))
    let (qids, e, err) ← ask F (.walk d names)
    match ensureNonNil e err with
    | .error err => return .error (.qids [] (some err))
    | .ok d =>
        if qids.length = 0 then return .error (.qids [] none)
        return .ok (qids, d)

/-! ## The operations -/

/-- The qid of an authentication file. -/
def authQid : Qid := ⟨qtauth, 0, 0⟩

/-- `Auth` on a fid that is accepted. -/
def authNew (afid : Fid) (uname aname : Bytes) : Direct φ Ret := do
  let (afile, err) ← ask F (.auth uname aname)
  match err with
  | some err => return .qid authQid (some err)
  | none =>
      assign afid (some ⟨none, none, afile, 0⟩)
      return .qid authQid none

def auth (afid : Fid) (uname aname : Bytes) : Direct φ Ret := do
  if afid = noFid then return .qid authQid none
  let required : Bool ← ask F .requireAuth
  if !required then return .qid authQid (some (.rerror (lit "no auth")))
  match ← refused afid with
  | some err => return .qid authQid (some err)
  | none => authNew F afid uname aname

/-- `Attach` on a fid that is accepted. -/
def attachNew (fid : Fid) (uname aname : Bytes) (af : Option File) : Direct φ Ret := do
  let (e, err) ← ask F (.attach uname aname af)
  match err, e with
  | some err, _ => return .qid noQid (some err)
  | none, none => hang
  | none, some d =>
      let q ← ask F (.qid d)
      assign fid (some ⟨none, some d, none, 0⟩)
      return .qid q none

def attachWith (fid : Fid) (uname aname : Bytes) (af : Option File) : Direct φ Ret := do
  match ← refused fid with
  | some err => return .qid noQid (some err)
  | none => attachNew F fid uname aname af

/-- `Attach` with a `File` that stands for an authentication. -/
def attachFile (fid : Fid) (uname aname : Bytes) : File → Direct φ Ret
  | ⟨id, .auth⟩ => do
      let ok : Bool ← ask F (.success ⟨id, .auth⟩)
      if !ok then return .qid noQid (some .perm)
      attachWith F fid uname aname (some ⟨id, .auth⟩)
  | _ => return .qid noQid (some .unknownfid)

def attach (fid afid : Fid) (uname aname : Bytes) : Direct φ Ret := do
  if afid = noFid then attachWith F fid uname aname none
  else
    match ← lookup afid with
    | none => return .qid noQid (some .unknownfid)
    | some (f, _) =>
        match f.file with
        | none =>
            assign afid (some { f with owner := some 0 })
            return .qid noQid (some .unknownfid)
        | some g => attachFile F fid uname aname g

def release (d : Nat) (remove : Bool) : Direct φ (Option Err) :=
  if remove then ask F (.remove d) else ask F (.clunk d)

def deleteSlot (fid : Fid) (f : SFid) (remove : Bool) : Direct φ Ret :=
  if f.owner.isSome then hang
  else do
    assign fid none
    match f.ent with
    | none => return .done none
    | some d => return .done (← release F d remove)

/-- `Clunk` and `Remove`. -/
def delete (fid : Fid) (remove : Bool) : Direct φ Ret := do
  match (← get).slots fid with
  | none => return .done (some .unknownfid)
  | some f => deleteSlot F fid f remove

/-- `Walk` when both fids are found to be in order. -/
def walkFrom (fid newfid : Fid) (f : SFid) (d : Nat) (names : List Bytes) : Direct φ Ret := do
  match ← walkEnt F d (newfid = fid) names with
  | .error r => return r
  | .ok (qids, d') =>
      if qids.length ≠ names.length then return .qids qids none
      if newfid = fid then
        let _ ← ask F (.clunk d)
        assign fid (some { f with ent := some d' })
        return .qids qids none
      assign newfid (some ⟨none, some d', none, 0⟩)
      return .qids qids none

def walk (fid newfid : Fid) (names : List Bytes) : Direct φ Ret := do
  if validPath names < 0 then return .qids [] (some (.rerror (lit "Non-normalized path")))
  match ← lookup fid with
  | none => return .qids [] (some .unknownfid)
  | some (f, d) =>
      if newfid = fid then walkFrom F fid newfid f d names
      else
        match ← refused newfid with
        | some err => return .qids [] (some err)
        | none => walkFrom F fid newfid f d names

/-- What is done with an entry that is there. -/
def withSlot (fid : Fid) (fail : Err → Ret) (body : SFid → Nat → Direct φ Ret) : Direct φ Ret := do
  match ← lookup fid with
  | none => return fail .unknownfid
  | some (f, d) => body f d

/-- `Read` and `Write` alike. -/
def transfer (refuses : Flag → Bool) (denied : Err) (io : File → Direct φ (Int × Option Err))
    (f : SFid) : Direct φ Ret := do
  match f.file with
  | none => return .count 0 (some (.rerror (lit "no file open")))
  | some g =>
      if refuses f.mode then return .count 0 (some denied)
      let (n, err) ← io g
      return .count n err

def readSlot (len : Nat) (offset : Int64) : SFid → Direct φ Ret :=
  transfer (fun mode => mode &&& oexec = owrite) .noread fun f => ask F (.read f len offset)

def read (fid : Fid) (len : Nat) (offset : Int64) : Direct φ Ret :=
  withSlot fid (fun err => .count 0 (some err)) fun f _ => readSlot F len offset f

def writeSlot (p : Bytes) (offset : Int64) : SFid → Direct φ Ret :=
  transfer (fun mode => mode &&& oexec ≠ owrite ∧ mode &&& oexec ≠ ordwr) .nowrite
    fun f => ask F (.write f p offset)

def write (fid : Fid) (p : Bytes) (offset : Int64) : Direct φ Ret :=
  withSlot fid (fun err => .count 0 (some err)) fun f _ => writeSlot F p offset f

def openFile (f : SFid) (d : Nat) (mode : Flag) : Direct φ (Except Err File) :=
  match f.file with
  | some _ => return .error (.rerror (lit "already open"))
  | none => openEnt F d mode

def openSlot (fid : Fid) (mode : Flag) (f : SFid) (d : Nat) : Direct φ Ret := do
  match ← openFile F f d mode with
  | .error err => return .opened noQid 0 (some err)
  | .ok g =>
      let q ← ask F (.qid d)
      let n ← ioUnit F g
      assign fid (some { f with file := some g, mode })
      return .opened q n none

def «open» (fid : Fid) (mode : Flag) : Direct φ Ret :=
  withSlot fid (fun err => .opened noQid 0 (some err)) (openSlot F fid mode)

/-- The entry now stands for what was created, and is open. -/
def replaceEnt (fid : Fid) (d : Nat) (g : File) (mode : Flag) : Direct φ Ret := do
  let q ← ask F (.qid d)
  let n ← ioUnit F g
  assign fid (some ⟨none, some d, some g, mode⟩)
  return .opened q n none

def createIn (d : Nat) (parent : Fid) (name : Bytes) (perm : UInt32) (mode : Flag) :
    Direct φ Ret := do
  unless ← isDir F d do return createFail (lit "create in non-directory")
  let (e, g, err) ← ask F (.create d name perm mode)
  match created e g err with
  | .error err => return createFail err.error
  | .ok (d', g) =>
      if ← isDir F d' then
        match ← openEnt F d' mode with
        | .error _ => hang
        | .ok g => replaceEnt F parent d' g mode
      else replaceEnt F parent d' g mode

def create (parent : Fid) (name : Bytes) (perm : UInt32) (mode : Flag) : Direct φ Ret := do
  if name = lit "." ∨ name = lit ".." then return createFail (lit "illegal filename")
  withSlot parent (fun err => createFail err.error) fun _ d =>
    createIn F d parent name perm mode

def statEnt (d : Nat) : Direct φ Ret := do
  let (dir, err) ← ask F (.stat d)
  return .stat dir err

def stat (fid : Fid) : Direct φ Ret :=
  withSlot fid (fun err => .stat Dir.zero (some err)) fun _ d => statEnt F d

def wstatEnt (dir : Dir) (d : Nat) : Direct φ Ret := do
  return .done (← ask F (.wstat d dir))

def wstat (fid : Fid) (dir : Dir) : Direct φ Ret :=
  withSlot fid (fun err => .done (some err)) fun _ d => wstatEnt F dir d

end Calls

end Direct

def Op.direct {φ : Type} (F : FileSys φ) : Op → Direct φ Ret
  | .auth afid uname aname => Direct.auth F afid uname aname
  | .attach fid afid uname aname => Direct.attach F fid afid uname aname
  | .clunk fid => Direct.delete F fid false
  | .remove fid => Direct.delete F fid true
  | .walk fid newfid names => Direct.walk F fid newfid names
  | .read fid len offset => Direct.read F fid len offset
  | .write fid p offset => Direct.write F fid p offset
  | .open fid mode => Direct.open F fid mode
  | .create parent name perm mode => Direct.create F parent name perm mode
  | .stat fid => Direct.stat F fid
  | .wstat fid dir => Direct.wstat F fid dir

/-! ## Tables -/

namespace Table

variable {s : Table} {ref : Nat} {f g : SFid} {fid : Fid}

/-- An `SFid` changes. -/
def set (s : Table) (ref : Nat) (f : SFid) : Table :=
  { s with sfid := Function.update s.sfid ref f }

@[simp] theorem set_sfid_self : (s.set ref f).sfid ref = f := Function.update_self ..

@[simp] theorem set_set : (s.set ref f).set ref g = s.set ref g := by
  simp [set]

theorem set_self (h : s.sfid ref = f) : s.set ref f = s := by
  subst h
  simp [set]

theorem slots_set (hs : s.Distinct) (href : s.refs fid = some ref) :
    (s.set ref f).slots = Function.update s.slots fid (some f) := by
  funext fid'
  by_cases hfid : fid' = fid
  · subst hfid
    simp [slots, set, href]
  · rw [Function.update_of_ne hfid]
    cases href' : s.refs fid' with
    | none => simp [slots, set, href']
    | some ref' =>
        have hne : ref' ≠ ref := fun heq => hfid (hs fid' fid ref (heq ▸ href') href)
        simp [slots, set, href', Function.update_of_ne hne]

/-- An `SFid` that no fid stands for changes. -/
theorem slots_set_unbound (href : ∀ fid, s.refs fid ≠ some ref) :
    (s.set ref f).slots = s.slots := by
  funext fid
  cases hfid : s.refs fid with
  | none => simp [slots, set, hfid]
  | some ref' =>
      have hne : ref' ≠ ref := fun heq => href fid (heq ▸ hfid)
      simp [slots, set, hfid, Function.update_of_ne hne]

theorem slots_of_refs (href : s.refs fid = some ref) : s.slots fid = some (s.sfid ref) := by
  rw [slots, href]
  rfl

theorem slots_eq_none : s.slots fid = none ↔ s.refs fid = none := Option.map_eq_none_iff

/-- The new `SFid` has `f` in it. -/
abbrev fresh (s : Table) (fid : Fid) (f : SFid) : Table := (s.bindNew 0 fid).set s.next f

/-- The same, and the fid is no longer bound. -/
abbrev spent (s : Table) (fid : Fid) (f : SFid) : Table :=
  ((s.bindNew 0 fid).unbind fid).set s.next f

theorem bindNew_eq_fresh : s.bindNew 0 fid = s.fresh fid ⟨some 0, none, none, 0⟩ :=
  (set_self (Function.update_self ..)).symm

theorem bindNew_distinct (hs : s.Distinct) : (s.bindNew 0 fid).Distinct := by
  intro fid₁ fid₂ ref h₁ h₂
  simp only [bindNew, Function.update_apply] at h₁ h₂
  split at h₁
  · rename_i heq
    split at h₂
    · rename_i heq'
      exact heq.trans heq'.symm
    · cases h₁
      exact absurd (s.bound h₂) (Nat.lt_irrefl _)
  · split at h₂
    · cases h₂
      exact absurd (s.bound h₁) (Nat.lt_irrefl _)
    · exact hs fid₁ fid₂ ref h₁ h₂

theorem unbind_distinct (hs : s.Distinct) : (s.unbind fid).Distinct := by
  intro fid₁ fid₂ ref h₁ h₂
  simp only [unbind, Function.update_apply] at h₁ h₂
  split at h₁
  · cases h₁
  · split at h₂
    · cases h₂
    · exact hs fid₁ fid₂ ref h₁ h₂

theorem slots_bindNew :
    (s.bindNew 0 fid).slots = Function.update s.slots fid (some ⟨some 0, none, none, 0⟩) := by
  funext fid'
  by_cases hfid : fid' = fid
  · subst hfid
    simp [slots, bindNew]
  · rw [Function.update_of_ne hfid]
    cases href : s.refs fid' with
    | none => simp [slots, bindNew, Function.update_of_ne hfid, href]
    | some ref =>
        have hne : ref ≠ s.next := Nat.ne_of_lt (s.bound href)
        simp [slots, bindNew, Function.update_of_ne hfid, href, Function.update_of_ne hne]

theorem slots_unbind : (s.unbind fid).slots = Function.update s.slots fid none := by
  funext fid'
  by_cases hfid : fid' = fid
  · subst hfid
    simp [slots, unbind]
  · simp [slots, unbind, Function.update_of_ne hfid]

/-- The new `SFid` stays. -/
theorem slots_fresh (hs : s.Distinct) :
    (s.fresh fid f).slots = Function.update s.slots fid (some f) := by
  rw [slots_set (bindNew_distinct hs) (Function.update_self ..), slots_bindNew,
    Function.update_idem]

/-- It goes again. -/
theorem slots_spent (href : s.refs fid = none) : (s.spent fid f).slots = s.slots := by
  have hunbound : ∀ fid', ((s.bindNew 0 fid).unbind fid).refs fid' ≠ some s.next := by
    intro fid' h
    simp only [unbind, bindNew, Function.update_apply] at h
    split at h
    · cases h
    · exact Nat.lt_irrefl _ (s.bound h)
  rw [slots_set_unbound hunbound, slots_unbind, slots_bindNew, Function.update_idem,
    ← slots_eq_none.mpr href, Function.update_eq_self]

/-- Another `SFid` is as it was. -/
theorem fresh_set (h : ref < s.next) :
    (s.set ref f).fresh fid g = (s.fresh fid g).set ref f := by
  simp [set, bindNew, Function.update_comm (Nat.ne_of_lt h)]

theorem spent_set (h : ref < s.next) :
    (s.set ref f).spent fid g = (s.spent fid g).set ref f := by
  simp [set, bindNew, unbind, Function.update_comm (Nat.ne_of_lt h)]

theorem fresh_sfid (h : ref < s.next) : (s.fresh fid g).sfid ref = s.sfid ref := by
  simp [set, bindNew, Function.update_of_ne (Nat.ne_of_lt h)]

theorem spent_sfid (h : ref < s.next) : (s.spent fid g).sfid ref = s.sfid ref := by
  simp [set, bindNew, unbind, Function.update_of_ne (Nat.ne_of_lt h)]

end Table

/-! ## Single commands -/

namespace Refines

section Commands

variable {φ α β : Type} {F : FileSys φ} {w : World φ} {v : View φ} {T T' : Table}
  {S : Fid → Option SFid} {ref d : Nat} {f : SFid} {fid : Fid} {n : Nat} {env : Nat → Unit}
  {Q : α → World φ → β → View φ → Prop} {m : Direct φ β}

/-- The world is as the view says, but for its table: this is `T`, where the view
has `S`. -/
structure At (T : Table) (S : Fid → Option SFid) (w : World φ) (v : View φ) : Prop where
  table : w.store.toTable = T
  slots : v.slots = S
  disk : w.disk = v.disk
  calls : w.store.calls = v.calls
  data : w.data = v.data

theorem At.view (h : At T T.slots w v) : w.view = v := by
  obtain ⟨rfl, hslots, hdisk, hcalls, hdata⟩ := h
  show View.mk _ _ _ _ = v
  rw [hdisk, hcalls, hdata, ← hslots]

/-- Only the table has changed. -/
theorem At.moved (h : At T S w v) {s : Store} (htable : s.toTable = T')
    (hcalls : s.calls = w.store.calls) : At T' S { w with store := s } v :=
  ⟨htable, h.slots, h.disk, hcalls.trans h.calls, h.data⟩

/-- Only the view has. -/
theorem At.assign (h : At T S w v) (fid : Fid) (g : Option SFid) :
    At T (Function.update S fid g) w { v with slots := Function.update v.slots fid g } :=
  ⟨h.table, congrArg (Function.update · fid g) h.slots, h.disk, h.calls, h.data⟩

/-- An `SFid` to work on. -/
theorem At.focus (h : At T S w v) (hf : T.sfid ref = f) : At (T.set ref f) S w v := by
  rwa [Table.set_self hf]

theorem At.sfid (h : At (T.set ref f) S w v) : w.store.sfid ref = f :=
  (congrArg (Table.sfid · ref) h.table).trans Table.set_sfid_self

theorem At.modify (h : At (T.set ref f) S w v) (g : SFid → SFid) :
    At (T.set ref (g f)) S { w with store := w.store.modify ref g } v := by
  refine h.moved ?_ rfl
  show w.store.toTable.set ref (g (w.store.sfid ref)) = _
  rw [h.sfid, h.table, Table.set_set]

abbrev Computes (F : FileSys φ) (env : Nat → Unit) (Q : α → World φ → β → View φ → Prop) (p : M α)
    (w : World φ) (n : Nat) (m : Direct φ β) (v : View φ) : Prop :=
  p.Computes (World.exec F) 0 env Q w n m v

/-- The command returns `r` and leaves the table `T`. -/
def Moves (F : FileSys φ) (T : Table) (S : Fid → Option SFid) (w : World φ) (v : View φ) (c : Cmd)
    (r : c.Res) : Prop :=
  ∃ w', (∀ e, World.exec F w 0 c e = some (r, w')) ∧ At T S w' v

theorem Moves.next {c : Cmd} {r : c.Res} {k : c.Res → M α} (h : Moves F T S w v c r)
    (hk : ∀ w' n', At T S w' v → Computes F env Q (k r) w' n' m v) :
    Computes F env Q (issue c >>= k) w n m v := by
  obtain ⟨w', hexec, hw'⟩ := h
  exact Prog.Computes.next (hexec _) (hk w' _ hw')

theorem Moves.last {c : Cmd} {r : c.Res} {k : c.Res → M α} {P : α → World φ → Prop}
    (h : Moves F T S w v c r) (hk : ∀ w' n', At T S w' v → Ends F env P (k r) w' n') :
    Ends F env P (issue c >>= k) w n := by
  obtain ⟨w', hexec, hw'⟩ := h
  exact Prog.Ends.cmd (hexec _) (hk w' _ hw')

theorem At.load (h : At T S w v) (e : Unit) :
    World.exec F w 0 (.load fid) e = some (T.refs fid, w) := by
  obtain ⟨rfl, -⟩ := h
  rfl

theorem At.lock_none (h : At (T.set ref f) S w v) (hf : f.owner.isSome = true) (e : Unit) :
    World.exec F w 0 (.lock ref) e = none := by
  obtain ⟨t, ht⟩ := Option.isSome_iff_exists.mp hf
  simp only [World.exec, Session.exec, h.sfid, ht]
  rfl

theorem At.lock (h : At (T.set ref f) S w v) (hf : f.owner = none) :
    Moves F (T.set ref { f with owner := some 0 }) S w v (.lock ref) () := by
  refine ⟨_, fun e => ?_, h.modify fun f => { f with owner := some 0 }⟩
  simp only [World.exec, Session.exec, h.sfid, hf]
  rfl

theorem At.unlock (h : At (T.set ref f) S w v) (hf : f.owner.isSome = true) :
    Moves F (T.set ref { f with owner := none }) S w v (.unlock ref) () := by
  obtain ⟨t, ht⟩ := Option.isSome_iff_exists.mp hf
  exact ⟨_, World.exec_unlock h.sfid ht, h.modify fun f => { f with owner := none }⟩

theorem At.setEnt (h : At (T.set ref f) S w v) (ent : Option Nat) :
    Moves F (T.set ref { f with ent }) S w v (.setEnt ref ent) () :=
  ⟨_, fun _ => rfl, h.modify fun f => { f with ent }⟩

theorem At.setFile (h : At (T.set ref f) S w v) (file : Option File) :
    Moves F (T.set ref { f with file }) S w v (.setFile ref file) () :=
  ⟨_, fun _ => rfl, h.modify fun f => { f with file }⟩

theorem At.setMode (h : At (T.set ref f) S w v) (mode : Flag) :
    Moves F (T.set ref { f with mode }) S w v (.setMode ref mode) () :=
  ⟨_, fun _ => rfl, h.modify fun f => { f with mode }⟩

theorem At.storeNew_none (h : At T S w v) (href : T.refs fid = some ref) (e : Unit) :
    World.exec F w 0 (.storeNew fid) e = some (none, w) := by
  obtain ⟨rfl, -⟩ := h
  simp only [World.exec, Session.exec, href]
  rfl

theorem At.storeNew (h : At T S w v) (href : T.refs fid = none) :
    Moves F (T.fresh fid ⟨some 0, none, none, 0⟩) S w v (.storeNew fid) (some T.next) := by
  obtain rfl := h.table
  refine ⟨_, fun e => ?_, h.moved
    (s := (w.store.bindNew 0 fid).record (.stored 0 fid w.store.next)) Table.bindNew_eq_fresh rfl⟩
  simp only [World.exec, Session.exec, href]
  rfl

theorem At.loadAndDelete_none (h : At T S w v) (href : T.refs fid = none) (e : Unit) :
    World.exec F w 0 (.loadAndDelete fid) e = some (none, w) := by
  obtain ⟨rfl, -⟩ := h
  simp only [World.exec, Session.exec, href]
  rfl

theorem At.loadAndDelete (h : At T S w v) (href : T.refs fid = some ref) :
    Moves F (T.unbind fid) S w v (.loadAndDelete fid) (some ref) := by
  obtain rfl := h.table
  refine ⟨_, fun e => ?_,
    h.moved (s := (w.store.unbind fid).record (.took 0 fid ref)) rfl rfl⟩
  simp only [World.exec, Session.exec, href]
  rfl

theorem At.delete (h : At T S w v) (fid : Fid) :
    Moves F (T.unbind fid) S w v (.delete fid) () := by
  obtain rfl := h.table
  exact ⟨_, fun _ => rfl, h.moved rfl rfl⟩

theorem At.ent (h : At (T.set ref f) S w v) (hent : f.ent = some d) {k : Nat → M α}
    (hk : ∀ n', Computes F env Q (k d) w n' m v) : Computes F env Q (ent ref >>= k) w n m v := by
  refine Prog.Computes.seq (ent_ends h.sfid hent) ?_
  rintro _ _ n' ⟨rfl, rfl⟩
  exact hk n'

theorem At.file (h : At (T.set ref f) S w v) {g : File} (hfile : f.file = some g) {k : File → M α}
    (hk : ∀ n', Computes F env Q (k g) w n' m v) : Computes F env Q (file ref >>= k) w n m v := by
  refine Prog.Computes.seq (P := fun g' w' => g' = g ∧ w' = w)
    (Prog.Ends.cmd (World.exec_getFile h.sfid _) ?_) ?_
  · rw [hfile]
    exact ⟨rfl, rfl⟩
  · rintro _ _ n' ⟨rfl, rfl⟩
    exact hk n'

end Commands

/-! ## The functions that the operations are made of -/

section Functions

variable {φ α β γ : Type} {F : FileSys φ} {w : World φ} {v : View φ} {T : Table}
  {S : Fid → Option SFid} {ref d : Nat} {f : SFid} {fid : Fid} {n : Nat} {env : Nat → Unit}

/-- The same result, and nothing was changed but by calls. -/
def Same (T : Table) (S : Fid → Option SFid) (a : α) (w : World φ) (b : α) (v : View φ) : Prop :=
  a = b ∧ At T S w v

theorem Computes.same {Q : β → World φ → γ → View φ → Prop} {p : M α} {m : Direct φ α}
    {k : α → M β} {k' : α → Direct φ γ} (h : Computes F env (Same T S) p w n m v)
    (hk : ∀ a w' n' v', At T S w' v' → Computes F env Q (k a) w' n' (k' a) v') :
    Computes F env Q (p >>= k) w n (m >>= k') v := by
  refine Prog.Computes.bind h ?_
  rintro a w' n' _ v' ⟨rfl, h'⟩
  exact hk a w' n' v' h'

theorem call_computes (h : At T S w v) (c : Call) :
    Computes F env (Same T S) (call c) w n (Direct.ask F c) v := by
  have henter : World.exec F w 0 (.enter c) (env n) =
      some ((), { w with store := w.store.record (.enter 0 c) }) := rfl
  refine Prog.Computes.next henter ?_
  show Computes F env (Same T S) (issue (.leave c) >>= pure) _ _ _ v
  cases hreply : F.reply w.store.calls c w.disk with
  | none =>
      have hask : Direct.ask F c v = none := by
        rw [Direct.ask, ← h.calls, ← h.disk, hreply]
      refine Prog.Computes.blocked ?_ hask
      show World.exec F { w with store := w.store.record (.enter 0 c) } 0 (.leave c) () = none
      simp only [World.exec, Store.record, hreply]
  | some reply =>
      obtain ⟨r, p, disk⟩ := reply
      have hask : Direct.ask F c v =
          (pure (c.answer w.store.calls r) : Direct φ c.Res)
            { v with disk, calls := w.store.calls + 1, data := p } := by
        rw [Direct.ask, ← h.calls, ← h.disk, hreply]
        rfl
      have hleave : World.exec F { w with store := w.store.record (.enter 0 c) } 0 (.leave c) () =
          some (c.answer w.store.calls r, ⟨(w.store.record (.enter 0 c)).answered 0 c
            (c.answer w.store.calls r), disk, p⟩) := by
        simp only [World.exec, Store.record, hreply]
        rfl
      refine Prog.Computes.next hleave (Prog.Computes.step hask (Prog.Computes.ret ?_))
      exact ⟨rfl, ⟨h.table, h.slots, rfl, rfl, rfl⟩⟩

theorem isDir_computes (h : At T S w v) (d : Nat) :
    Computes F env (Same T S) (isDir d) w n (Direct.isDir F d) v := by
  refine (call_computes h (.qid d)).same ?_
  intro q w' n' v' h'
  exact .ret ⟨rfl, h'⟩

theorem ioUnit_computes (h : At T S w v) (g : File) :
    Computes F env (Same T S) (ioUnit g) w n (Direct.ioUnit F g) v := by
  unfold ioUnit Direct.ioUnit
  split
  · exact .ret ⟨rfl, h⟩
  · refine (call_computes h (.ioUnit g)).same ?_
    intro k w' n' v' h'
    exact .ret ⟨rfl, h'⟩

/-- The `Ent` is `d` each time it is read. -/
theorem openEnt_computes {getEnt : M Nat} {d : Nat} (h : At T S w v)
    (hget : ∀ {w v n}, At T S w v → Ends F env (fun d' w' => d' = d ∧ w' = w) getEnt w n)
    (mode : Flag) :
    Computes F env (Same T S) (openEnt getEnt mode) w n (Direct.openEnt F d mode) v := by
  refine Prog.Computes.seq (hget h) ?_
  rintro _ _ n₀ ⟨rfl, rfl⟩
  refine (isDir_computes h _).same ?_
  intro dir w₁ n₁ v₁ h₁
  cases dir with
  | true =>
      refine Prog.Computes.seq (hget h₁) ?_
      rintro d _ n₂ ⟨rfl, rfl⟩
      refine (call_computes h₁ (.openDir d)).same ?_
      rintro ⟨dirs, err⟩ w₂ n₂ v₂ h₂
      cases err with
      | some err => exact .ret ⟨rfl, h₂⟩
      | none => exact .ret ⟨rfl, h₂⟩
  | false =>
      refine Prog.Computes.seq (hget h₁) ?_
      rintro d _ n₂ ⟨rfl, rfl⟩
      refine (call_computes h₁ (.open d mode)).same ?_
      intro r w₂ n₂ v₂ h₂
      exact .ret ⟨rfl, h₂⟩

/-- What `getRef` has found. -/
structure Got (T : Table) (fid : Fid) (ref : Nat) (f : SFid) (d : Nat) : Prop where
  refs : T.refs fid = some ref
  sfid : T.sfid ref = f
  owner : f.owner = none
  ent : f.ent = some d

/-- The table with the `SFid` locked. -/
abbrev Got.table (_ : Got T fid ref f d) : Table := T.set ref { f with owner := some 0 }

/-- `getRef` has found a fid, or not. -/
def Found (T : Table) (S : Fid → Option SFid) (fid : Fid) (r : Except Err Nat) (w : World φ)
    (b : Option (SFid × Nat)) (v : View φ) : Prop :=
  match b with
  | none => r = .error .unknownfid ∧ At T S w v
  | some (f, d) => ∃ ref, r = .ok ref ∧ ∃ hgot : Got T fid ref f d, At hgot.table S w v

theorem lookup_none (hfid : fid ≠ noFid) (hf : v.slots fid = none) :
    Direct.lookup fid v = (pure none : Direct φ _) v := by
  unfold Direct.lookup
  rw [if_neg hfid]
  show (match v.slots fid with
    | none => pure none
    | some f => if f.owner.isSome then Direct.hang else pure (f.ent.map (f, ·)) : Direct φ _) v = _
  rw [hf]

theorem lookup_some (hfid : fid ≠ noFid) (hf : v.slots fid = some f) :
    Direct.lookup fid v =
      (if f.owner.isSome then Direct.hang else pure (f.ent.map (f, ·)) : Direct φ _) v := by
  unfold Direct.lookup
  rw [if_neg hfid]
  show (match v.slots fid with
    | none => pure none
    | some f => if f.owner.isSome then Direct.hang else pure (f.ent.map (f, ·)) : Direct φ _) v = _
  rw [hf]

theorem getRef_computes (h : At T T.slots w v) (fid : Fid) :
    Computes F env (Found T T.slots fid) (getRef fid) w n (Direct.lookup fid) v := by
  by_cases hfid : fid = noFid
  · rw [getRef, if_pos hfid, Direct.lookup, if_pos hfid]
    exact .ret ⟨rfl, h⟩
  · rw [getRef, if_neg hfid]
    refine Prog.Computes.next (h.load _) ?_
    cases href : T.refs fid with
    | none =>
        have hnone : v.slots fid = none := by
          rw [h.slots]
          exact Table.slots_eq_none.mpr href
        exact .step (lookup_none hfid hnone) (.ret ⟨rfl, h⟩)
    | some ref =>
        have hlookup := lookup_some hfid (v := v) (by rw [h.slots]; exact Table.slots_of_refs href)
        have hfocus : At (T.set ref (T.sfid ref)) T.slots w v := h.focus rfl
        cases ho : (T.sfid ref).owner with
        | some t =>
            have hsome : (T.sfid ref).owner.isSome = true := by rw [ho]; rfl
            rw [if_pos hsome] at hlookup
            exact Prog.Computes.blocked (hfocus.lock_none hsome _) hlookup
        | none =>
            have hnone : (T.sfid ref).owner.isSome ≠ true := by rw [ho]; exact Bool.false_ne_true
            rw [if_neg hnone] at hlookup
            refine (hfocus.lock ho).next fun w₁ n₁ h₁ => ?_
            refine Prog.Computes.next (World.exec_getEnt h₁.sfid _) (.step hlookup ?_)
            cases he : (T.sfid ref).ent with
            | none =>
                refine (h₁.unlock rfl).next fun w₂ n₂ h₂ => .ret ⟨rfl, ?_⟩
                rwa [Table.set_self] at h₂
                rw [← ho]
            | some d => exact .ret ⟨ref, rfl, ⟨href, rfl, ho, he⟩, h₁⟩

end Functions

/-! ## Operations on one fid -/

section Operations

variable {φ : Type} {F : FileSys φ} {w : World φ} {v : View φ} {T : Table} {ref d : Nat}
  {f : SFid} {fid : Fid} {n : Nat} {env : Nat → Unit}

/-- The operation has returned what the function has, and the table is what the
function has made of it. -/
def Done (a : Ret) (w : World φ) (b : Ret) (v : View φ) : Prop :=
  a = b ∧ ∃ T : Table, At T T.slots w v ∧ T.Distinct

/-- Between `getRef` and the deferred `Unlock`: the `SFid` is locked and has `g`
in it, and nothing else has changed. -/
def Inside (T : Table) (fid : Fid) (ref : Nat) (a : Ret) (w : World φ) (b : Ret) (v : View φ) :
    Prop :=
  a = b ∧ ∃ g : SFid, g.owner.isSome = true ∧
    At (T.set ref g) (Function.update T.slots fid (some { g with owner := none })) w v

theorem Got.held (h : Got T fid ref f d) (hw : At h.table T.slots w v) :
    Inside T fid ref a w a v := by
  have hf : ({ f with owner := none } : SFid) = T.sfid ref := by
    rw [h.sfid, ← h.owner]
  refine ⟨rfl, { f with owner := some 0 }, rfl, ?_⟩
  show At h.table (Function.update T.slots fid (some { f with owner := none })) w v
  rwa [hf, ← Table.slots_of_refs h.refs, Function.update_eq_self]

theorem unlock_done (href : T.refs fid = some ref) (hT : T.Distinct)
    (h : Inside T fid ref a w b v) :
    Ends F env (fun c w' => Done c w' b v) (do issue (.unlock ref); return a) w n := by
  obtain ⟨rfl, g, hheld, hw⟩ := h
  rw [← Table.slots_set hT href] at hw
  exact (hw.unlock hheld).last fun w' n' hw' => ⟨rfl, _, hw', hT⟩

theorem withRef_computes (h : At T T.slots w v) (hT : T.Distinct) {fail : Err → Ret}
    {body : Nat → M Ret} {body' : SFid → Nat → Direct φ Ret}
    (hbody : ∀ ref f d w' n' v', (hgot : Got T fid ref f d) → At hgot.table T.slots w' v' →
      Computes F env (Inside T fid ref) (body ref) w' n' (body' f d) v') :
    Computes F env Done (withRef fid fail body) w n (Direct.withSlot fid fail body') v := by
  refine (getRef_computes h fid).bind ?_
  intro r w₁ n₁ found v₁ hfound
  cases found with
  | none =>
      obtain ⟨rfl, h₁⟩ := hfound
      exact .ret ⟨rfl, T, h₁, hT⟩
  | some p =>
      obtain ⟨f, d⟩ := p
      obtain ⟨ref, rfl, hgot, h₁⟩ := hfound
      exact (hbody ref f d w₁ n₁ v₁ hgot h₁).then
        fun a w₂ n₂ b v₂ hheld => unlock_done hgot.refs hT hheld

theorem stat_computes (h : At T T.slots w v) (hT : T.Distinct) (fid : Fid) :
    Computes F env Done (stat fid) w n (Direct.stat F fid) v := by
  refine withRef_computes h hT fun ref f d w₁ n₁ v₁ hgot h₁ => ?_
  refine h₁.ent hgot.ent fun n₂ => ?_
  refine (call_computes h₁ (.stat d)).same ?_
  rintro ⟨dir, err⟩ w₂ n₃ v₂ h₂
  exact .ret (hgot.held h₂)

theorem wstat_computes (h : At T T.slots w v) (hT : T.Distinct) (fid : Fid) (dir : Dir) :
    Computes F env Done (wstat fid dir) w n (Direct.wstat F fid dir) v := by
  refine withRef_computes h hT fun ref f d w₁ n₁ v₁ hgot h₁ => ?_
  refine h₁.ent hgot.ent fun n₂ => ?_
  refine (call_computes h₁ (.wstat d dir)).same ?_
  intro err w₂ n₃ v₂ h₂
  exact .ret (hgot.held h₂)

theorem transfer_computes (h : At T T.slots w v) (hT : T.Distinct)
    (fid : Fid) (refuses : Flag → Bool) (denied : Err) {io : File → M (Int × Option Err)}
    {io' : File → Direct φ (Int × Option Err)}
    (hio : ∀ {T' : Table} {w : World φ} {n : Nat} {v : View φ} (g : File), At T' T.slots w v →
      Computes F env (Same T' T.slots) (io g) w n (io' g) v) :
    Computes F env Done (transfer fid refuses denied io) w n
      (Direct.withSlot fid (fun err => .count 0 (some err)) fun f _ =>
        Direct.transfer refuses denied io' f) v := by
  refine withRef_computes h hT fun ref f d w₁ n₁ v₁ hgot h₁ => ?_
  refine Prog.Computes.next (World.exec_getFile h₁.sfid _) ?_
  rw [Direct.transfer.eq_def]
  dsimp only
  cases hfile : f.file with
  | none => exact .ret (hgot.held h₁)
  | some g =>
      refine Prog.Computes.next (World.exec_getMode h₁.sfid _) ?_
      dsimp only
      split
      · exact .ret (hgot.held h₁)
      · refine h₁.file hfile fun n₂ => ?_
        refine (hio g h₁).same ?_
        rintro ⟨k, err⟩ w₂ n₃ v₂ h₂
        exact .ret (hgot.held h₂)

theorem assign_computes {α : Type} {a : α} {Q : α → World φ → Ret → View φ → Prop}
    {g : Option SFid} (h : Q a w b { v with slots := Function.update v.slots fid g }) :
    Computes F env Q (pure a) w n (do Direct.assign fid g; return b) v :=
  Prog.Computes.ret (v := { v with slots := Function.update v.slots fid g }) h

/-- `openLocked` leaves the file and the mode in the `SFid`. -/
def Opened (T : Table) (ref : Nat) (f : SFid) (mode : Flag) (a : Option Err) (w : World φ)
    (b : Except Err File) (v : View φ) : Prop :=
  match b with
  | .error err => a = some err ∧ At (T.set ref { f with owner := some 0 }) T.slots w v
  | .ok g => a = none ∧
      At (T.set ref { f with owner := some 0, file := some g, mode }) T.slots w v

theorem openLocked_computes (hgot : Got T fid ref f d) (h : At hgot.table T.slots w v)
    (mode : Flag) :
    Computes F env (Opened T ref f mode) (openLocked ref mode) w n
      (Direct.openFile F f d mode) v := by
  refine Prog.Computes.next (World.exec_getFile h.sfid _) ?_
  rw [Direct.openFile.eq_def]
  dsimp only
  cases hfile : f.file with
  | some g => exact .ret ⟨rfl, h⟩
  | none =>
      refine (openEnt_computes h (fun h => ent_ends h.sfid hgot.ent) mode).then ?_
      rintro r w₁ n₂ _ v₁ ⟨rfl, h₁⟩
      cases r with
      | error err => exact ⟨rfl, h₁⟩
      | ok g =>
          refine (h₁.setFile (some g)).last fun w₂ n₃ h₂ => ?_
          exact (h₂.setMode mode).last fun w₃ n₄ h₃ => ⟨rfl, h₃⟩

theorem open_computes (h : At T T.slots w v) (hT : T.Distinct) (fid : Fid) (mode : Flag) :
    Computes F env Done («open» fid mode) w n (Direct.open F fid mode) v := by
  refine withRef_computes h hT fun ref f d w₁ n₁ v₁ hgot h₁ => ?_
  refine (openLocked_computes hgot h₁ mode).bind ?_
  intro err w₂ n₂ opened v₂ hopened
  cases opened with
  | error err =>
      obtain ⟨rfl, h₂⟩ := hopened
      exact .ret (hgot.held h₂)
  | ok g =>
      obtain ⟨rfl, h₂⟩ := hopened
      refine h₂.ent hgot.ent fun n₃ => ?_
      refine (call_computes h₂ (.qid d)).same fun q w₃ n₄ v₃ h₃ => ?_
      refine h₃.file rfl fun n₅ => ?_
      refine (ioUnit_computes h₃ g).same fun k w₄ n₆ v₄ h₄ => ?_
      refine assign_computes ⟨rfl, { f with owner := some 0, file := some g, mode }, rfl, ?_⟩
      have h₅ := h₄.assign fid (some { f with file := some g, mode })
      rwa [← hgot.owner]

theorem replaceEnt_computes {g₀ : SFid} (hheld : g₀.owner = some 0)
    (h : At (T.set ref g₀) T.slots w v) (fid : Fid) (d : Nat) (g : File) (mode : Flag) :
    Computes F env (Inside T fid ref) (replaceEnt ref d g mode) w n
      (Direct.replaceEnt F fid d g mode) v := by
  refine (h.setFile none).next fun w₁ n₁ h₁ => ?_
  refine (h₁.setMode 0).next fun w₂ n₂ h₂ => ?_
  refine (h₂.setEnt (some d)).next fun w₃ n₃ h₃ => ?_
  refine (h₃.setFile (some g)).next fun w₄ n₄ h₄ => ?_
  refine (h₄.setMode mode).next fun w₅ n₅ h₅ => ?_
  refine h₅.ent rfl fun n₆ => ?_
  refine (call_computes h₅ (.qid d)).same fun q w₆ n₇ v₆ h₆ => ?_
  refine (ioUnit_computes h₆ g).same fun k w₇ n₈ v₇ h₇ => ?_
  refine assign_computes ⟨rfl, _, ?_, h₇.assign fid _⟩
  rw [hheld]
  rfl

/-- `delRef` waits for a mutex that its caller holds. -/
theorem delRef_hangs {S : Fid → Option SFid} (h : At T S w v) (href : T.refs fid = some ref)
    (hheld : (T.sfid ref).owner.isSome = true) (remove : Bool) {m : Direct φ Ret}
    (hm : m v = none) {k : Option Err → M Ret} {Q : Ret → World φ → Ret → View φ → Prop} :
    Computes F env Q (delRef fid remove >>= k) w n m v := by
  refine (h.loadAndDelete href).next fun w₁ n₁ h₁ => ?_
  have hfocus : At ((T.unbind fid).set ref (T.sfid ref)) S w₁ v := h₁.focus rfl
  exact Prog.Computes.blocked (hfocus.lock_none hheld _) hm

theorem createLocked_computes (hgot : Got T fid ref f d) (h : At hgot.table T.slots w v)
    (name : Bytes) (perm : UInt32) (mode : Flag) :
    Computes F env (Inside T fid ref) (createLocked ref fid name perm mode) w n
      (Direct.createIn F d fid name perm mode) v := by
  refine h.ent hgot.ent fun n₀ => ?_
  refine (isDir_computes h d).same ?_
  intro dir w₁ n₁ v₁ h₁
  cases dir with
  | false => exact .ret (hgot.held h₁)
  | true =>
      refine h₁.ent hgot.ent fun n₂ => ?_
      refine (call_computes h₁ (.create d name perm mode)).same ?_
      rintro ⟨e, g, err⟩ w₃ n₃ v₃ h₃
      dsimp only
      cases hcreated : created e g err with
      | error err => exact .ret (hgot.held h₃)
      | ok p =>
          obtain ⟨d', g'⟩ := p
          refine (isDir_computes h₃ d').same ?_
          intro dir' w₄ n₄ v₄ h₄
          cases dir' with
          | false => exact replaceEnt_computes rfl h₄ fid d' g' mode
          | true =>
              have hget : ∀ {w n}, Ends F env (fun d w' => d = d' ∧ w' = w) (pure d') w n :=
                ⟨rfl, rfl⟩
              refine (openEnt_computes h₄ (fun _ => hget) mode).same ?_
              intro r w₅ n₅ v₅ h₅
              cases r with
              | ok g'' => exact replaceEnt_computes rfl h₅ fid d' g'' mode
              | error err =>
                  refine delRef_hangs h₅ hgot.refs ?_ false rfl
                  rw [Table.set_sfid_self]
                  rfl

theorem create_computes (h : At T T.slots w v) (hT : T.Distinct) (fid : Fid)
    (name : Bytes) (perm : UInt32) (mode : Flag) :
    Computes F env Done (create fid name perm mode) w n (Direct.create F fid name perm mode) v := by
  unfold create Direct.create
  split
  · exact .ret ⟨rfl, T, h, hT⟩
  · exact withRef_computes h hT fun ref f d w₁ n₁ v₁ hgot h₁ =>
      createLocked_computes hgot h₁ name perm mode

theorem delRefAction_computes {S : Fid → Option SFid} (h : At (T.set ref f) S w v)
    (hent : f.ent = some d) (remove : Bool) :
    Computes F env (Same (T.set ref { f with ent := none }) S) (delRefAction ref remove) w n
      (Direct.release F d remove) v := by
  refine h.ent hent fun n₁ => ?_
  have hfinish : ∀ a w' n' b v', Same (T.set ref f) S a w' b v' →
      Ends F env (fun c w'' => Same (T.set ref { f with ent := none }) S c w'' b v')
        (do issue (.setEnt ref none); return combineErrors none a) w' n' := by
    rintro a w' n' _ v' ⟨rfl, h'⟩
    exact (h'.setEnt none).last fun w'' n'' h'' => ⟨by cases a <;> rfl, h''⟩
  cases remove with
  | true => exact (call_computes h (.remove d)).then hfinish
  | false => exact (call_computes h (.clunk d)).then hfinish

/-- `delRef` when the fid is bound and its mutex free. -/
theorem delRef_computes (h : At T T.slots w v) (hT : T.Distinct) (href : T.refs fid = some ref)
    (hf : T.sfid ref = f) (ho : f.owner = none) (remove : Bool) :
    Computes F env (fun a w' b v' => Done (.done a) w' b v') (delRef fid remove) w n
      (Direct.deleteSlot F fid f remove) v := by
  have hunbound : ∀ fid', (T.unbind fid).refs fid' ≠ some ref := by
    intro fid' hfid'
    simp only [Table.unbind, Function.update_apply] at hfid'
    split at hfid'
    · cases hfid'
    · rename_i hne
      exact hne (hT fid' fid ref hfid' href)
  have hdone : ∀ a g (w' : World φ) v',
      At ((T.unbind fid).set ref g) (Function.update T.slots fid none) w' v' →
        Done (.done a) w' (.done a) v' := by
    intro a g w' v' h'
    rw [← Table.slots_unbind, ← Table.slots_set_unbound hunbound (f := g)] at h'
    exact ⟨rfl, (T.unbind fid).set ref g, h', Table.unbind_distinct hT⟩
  rw [Direct.deleteSlot, if_neg (by rw [ho]; exact Bool.false_ne_true)]
  refine (h.loadAndDelete href).next fun w₁ n₁ h₁ => ?_
  have hfocus : At ((T.unbind fid).set ref f) T.slots w₁ v := h₁.focus hf
  refine (hfocus.lock ho).next fun w₂ n₂ h₂ => ?_
  have hassign : ∀ m : Direct φ Ret, (do Direct.assign fid none; m) v =
      m { v with slots := Function.update v.slots fid none } := fun _ => rfl
  refine Prog.Computes.step (hassign _) ?_
  have h₃ := h₂.assign fid none
  cases hent : f.ent with
  | none =>
      refine Prog.Computes.seq (P := fun a w' => a = none ∧ w' = w₂) ?_ ?_
      · refine Prog.Ends.cmd (World.exec_getEnt h₃.sfid _) ?_
        dsimp only
        rw [hent]
        exact ⟨rfl, rfl⟩
      · rintro _ _ n₅ ⟨rfl, rfl⟩
        exact (h₃.unlock rfl).next fun w₄ n₄ h₄ => .ret (hdone _ _ _ _ h₄)
  | some d =>
      refine Prog.Computes.bind (m := Direct.release F d remove)
        (Q := Same ((T.unbind fid).set ref { f with owner := some 0, ent := none })
          (Function.update T.slots fid none))
        (Prog.Computes.next (World.exec_getEnt h₃.sfid _) ?_) ?_
      · dsimp only
        rw [hent]
        exact delRefAction_computes h₃ hent remove
      · rintro a w₄ n₄ _ v₄ ⟨rfl, h₄⟩
        exact (h₄.unlock rfl).next fun w₅ n₅ h₅ => .ret (hdone _ _ _ _ h₅)

theorem delete_none (hf : v.slots fid = none) (remove : Bool) :
    Direct.delete F fid remove v = (pure (.done (some .unknownfid)) : Direct φ Ret) v := by
  show (match v.slots fid with
    | none => pure (.done (some .unknownfid))
    | some f => Direct.deleteSlot F fid f remove : Direct φ Ret) v = _
  rw [hf]

theorem delete_some (hf : v.slots fid = some f) (remove : Bool) :
    Direct.delete F fid remove v = Direct.deleteSlot F fid f remove v := by
  show (match v.slots fid with
    | none => pure (.done (some .unknownfid))
    | some f => Direct.deleteSlot F fid f remove : Direct φ Ret) v = _
  rw [hf]

/-- `Clunk` and `Remove`. -/
theorem delete_computes (h : At T T.slots w v) (hT : T.Distinct) (fid : Fid) (remove : Bool) :
    Computes F env Done (do return .done (← delRef fid remove)) w n
      (Direct.delete F fid remove) v := by
  cases href : T.refs fid with
  | none =>
      have hnone : v.slots fid = none := by
        rw [h.slots]
        exact Table.slots_eq_none.mpr href
      refine Prog.Computes.step (delete_none hnone remove) ?_
      refine Prog.Computes.seq (P := fun a w' => a = some .unknownfid ∧ w' = w)
        (Prog.Ends.cmd (h.loadAndDelete_none href _) ⟨rfl, rfl⟩) ?_
      rintro _ _ n₁ ⟨rfl, rfl⟩
      exact .ret ⟨rfl, T, h, hT⟩
  | some ref =>
      have hsome : v.slots fid = some (T.sfid ref) := by
        rw [h.slots]
        exact Table.slots_of_refs href
      refine Prog.Computes.step (delete_some hsome remove) ?_
      cases ho : (T.sfid ref).owner with
      | some t =>
          have hheld : (T.sfid ref).owner.isSome = true := by rw [ho]; rfl
          refine delRef_hangs h href hheld remove ?_
          rw [Direct.deleteSlot, if_pos hheld]
          rfl
      | none =>
          exact (delRef_computes h hT href rfl ho remove).then fun _ _ _ _ _ hdone => hdone

end Operations

/-! ## Operations on a new fid -/

section NewFids

variable {φ : Type} {F : FileSys φ} {w : World φ} {v : View φ} {T : Table}
  {S : Fid → Option SFid} {ref d : Nat} {f : SFid} {fid : Fid} {n : Nat} {env : Nat → Unit}

theorem refused_of_slots (hfid : fid ≠ noFid) :
    Direct.refused fid v =
      (pure (if v.slots fid = none then none else some .dupfid) : Direct φ _) v := by
  unfold Direct.refused
  rw [if_neg hfid]
  show (match v.slots fid with
    | none => pure none
    | some _ => pure (some .dupfid) : Direct φ (Option Err)) v = _
  cases v.slots fid with
  | none => rfl
  | some g => rfl

/-- `newRef` has stored a placeholder, or refuses. -/
def Reserved (T : Table) (S : Fid → Option SFid) (fid : Fid) (r : Except Err Nat) (w : World φ)
    (b : Option Err) (v : View φ) : Prop :=
  match b with
  | some err => r = .error err ∧ At T S w v
  | none => r = .ok T.next ∧ T.refs fid = none ∧
      At (T.fresh fid ⟨some 0, none, none, 0⟩) S w v

theorem newRef_computes (h : At T S w v) (hfree : S fid = none ↔ T.refs fid = none) :
    Computes F env (Reserved T S fid) (newRef fid) w n (Direct.refused fid) v := by
  by_cases hfid : fid = noFid
  · rw [newRef, if_pos hfid, Direct.refused, if_pos hfid]
    exact .ret ⟨rfl, h⟩
  · rw [newRef, if_neg hfid]
    refine Prog.Computes.step (refused_of_slots hfid) ?_
    rw [h.slots]
    cases href : T.refs fid with
    | some ref =>
        have hne : S fid ≠ none := fun hnone => by
          rw [hfree.mp hnone] at href
          cases href
        rw [if_neg hne]
        exact Prog.Computes.next (h.storeNew_none href _) (.ret ⟨rfl, h⟩)
    | none =>
        rw [if_pos (hfree.mpr href)]
        exact (h.storeNew href).next fun w₁ n₁ h₁ => .ret ⟨rfl, href, h₁⟩

/-- What has become of the placeholder, locked as it is. -/
def Filled (T : Table) (S : Fid → Option SFid) (fid : Fid) (a : Ret) (w : World φ) (b : Ret)
    (v : View φ) : Prop :=
  a = b ∧ ∃ g : SFid, g.owner.isSome = true ∧
    (At (T.fresh fid g) (Function.update S fid (some { g with owner := none })) w v ∨
      At (T.spent fid g) S w v)

/-- What has become of a new fid: it was refused, it is bound, or it was taken
back. -/
def Settled (T : Table) (S : Fid → Option SFid) (fid : Fid) (a : Ret) (w : World φ) (b : Ret)
    (v : View φ) : Prop :=
  a = b ∧
    (At T S w v ∨
      T.refs fid = none ∧ ∃ g : SFid,
        (At (T.fresh fid g) (Function.update S fid (some g)) w v ∨ At (T.spent fid g) S w v))

theorem withNewRef_computes (h : At T S w v) (hfree : S fid = none ↔ T.refs fid = none)
    {fail : Err → Ret} {body : Nat → M Ret} {body' : Direct φ Ret}
    (hbody : ∀ w' n' v', At (T.fresh fid ⟨some 0, none, none, 0⟩) S w' v' →
      Computes F env (Filled T S fid) (body T.next) w' n' body' v') :
    Computes F env (Settled T S fid) (withNewRef fid fail body) w n
      (do match ← Direct.refused fid with
          | some err => return fail err
          | none => body') v := by
  refine (newRef_computes h hfree).bind ?_
  intro r w₁ n₁ refused v₁ hres
  cases refused with
  | some err =>
      obtain ⟨rfl, h₁⟩ := hres
      exact .ret ⟨rfl, Or.inl h₁⟩
  | none =>
      obtain ⟨rfl, href, h₁⟩ := hres
      refine (hbody w₁ n₁ v₁ h₁).then ?_
      rintro a w₂ n₂ _ v₂ ⟨rfl, g, hheld, h₂ | h₂⟩
      · exact (h₂.unlock hheld).last fun w₃ n₃ h₃ => ⟨rfl, Or.inr ⟨href, _, Or.inl h₃⟩⟩
      · exact (h₂.unlock hheld).last fun w₃ n₃ h₃ => ⟨rfl, Or.inr ⟨href, _, Or.inr h₃⟩⟩

theorem Settled.done (h : Settled T T.slots fid a w b v) (hT : T.Distinct) : Done a w b v := by
  obtain ⟨rfl, h | ⟨href, g, h | h⟩⟩ := h
  · exact ⟨rfl, T, h, hT⟩
  · exact ⟨rfl, T.fresh fid g, (Table.slots_fresh hT).symm ▸ h, Table.bindNew_distinct hT⟩
  · exact ⟨rfl, T.spent fid g, (Table.slots_spent href).symm ▸ h,
      Table.unbind_distinct (Table.bindNew_distinct hT)⟩

theorem auth_computes (h : At T T.slots w v) (hT : T.Distinct) (afid : Fid)
    (uname aname : Bytes) :
    Computes F env Done (auth afid uname aname) w n (Direct.auth F afid uname aname) v := by
  unfold auth Direct.auth
  dsimp only
  split
  · exact .ret ⟨rfl, T, h, hT⟩
  · refine (call_computes h .requireAuth).same fun required w₁ n₁ v₁ h₁ => ?_
    split
    · exact .ret ⟨rfl, T, h₁, hT⟩
    · refine (withNewRef_computes h₁ Table.slots_eq_none fun w₂ n₂ v₂ h₂ => ?_).mono
        fun a w' b v' hset => Settled.done hset hT
      refine (call_computes h₂ (.auth uname aname)).same ?_
      rintro ⟨afile, err⟩ w₃ n₃ v₃ h₃
      cases err with
      | some err =>
          exact (h₃.delete afid).next fun w₄ n₄ h₄ => .ret ⟨rfl, _, rfl, Or.inr h₄⟩
      | none =>
          refine (h₃.setFile afile).next fun w₄ n₄ h₄ => ?_
          exact assign_computes ⟨rfl, _, rfl, Or.inl (h₄.assign afid _)⟩

theorem attachWith_computes (h : At T S w v) (hfree : S fid = none ↔ T.refs fid = none)
    (uname aname : Bytes) (af : Option File) :
    Computes F env (Settled T S fid) (attachWith fid uname aname af) w n
      (Direct.attachWith F fid uname aname af) v := by
  refine withNewRef_computes h hfree fun w₁ n₁ v₁ h₁ => ?_
  refine (call_computes h₁ (.attach uname aname af)).same ?_
  rintro ⟨e, err⟩ w₂ n₂ v₂ h₂
  cases err with
  | some err => exact (h₂.delete fid).next fun w₃ n₃ h₃ => .ret ⟨rfl, _, rfl, Or.inr h₃⟩
  | none =>
      refine (h₂.setEnt e).next fun w₃ n₃ h₃ => ?_
      cases e with
      | none => exact .crash rfl
      | some d =>
          refine (call_computes h₃ (.qid d)).same fun q w₄ n₄ v₄ h₄ => ?_
          exact assign_computes ⟨rfl, _, rfl, Or.inl (h₄.assign fid _)⟩

/-- An operation holds the mutex of `ref`, and has done what else it does. -/
def Locked (ref : Nat) (f : SFid) (a : Ret) (w : World φ) (b : Ret) (v : View φ) : Prop :=
  a = b ∧ ∃ T : Table, T.sfid ref = f ∧ T.Distinct ∧
    At (T.set ref { f with owner := some 0 }) T.slots w v

theorem Locked.unlock (h : Locked ref f a w b v) (hf : f.owner = none) :
    Ends F env (fun c w' => Done c w' b v) (do issue (.unlock ref); return a) w n := by
  obtain ⟨rfl, T, hsfid, hT, hw⟩ := h
  have hsame : T.set ref { f with owner := none } = T := Table.set_self (by rw [hsfid, ← hf])
  refine (hw.unlock rfl).last fun w' n' hw' => ⟨rfl, T, ?_, hT⟩
  rw [← hsame]
  exact hsame.symm ▸ hw'

/-- A new fid beside one that is locked. -/
theorem Settled.locked {afid : Fid} {aref : Nat} (hgot : Got T afid aref f d) (hT : T.Distinct)
    (h : Settled hgot.table T.slots fid a w b v) : Locked aref f a w b v := by
  have hlt : aref < T.next := T.bound hgot.refs
  obtain ⟨rfl, h | ⟨href, g, h | h⟩⟩ := h
  · exact ⟨rfl, T, hgot.sfid, hT, h⟩
  · rw [Table.fresh_set hlt, ← Table.slots_fresh hT] at h
    exact ⟨rfl, _, (Table.fresh_sfid hlt).trans hgot.sfid, Table.bindNew_distinct hT, h⟩
  · rw [Table.spent_set hlt, ← Table.slots_spent (s := T) href] at h
    exact ⟨rfl, _, (Table.spent_sfid hlt).trans hgot.sfid,
      Table.unbind_distinct (Table.bindNew_distinct hT), h⟩

theorem attachFile_computes {afid : Fid} {aref : Nat} {g : File} (hgot : Got T afid aref f d)
    (h : At hgot.table T.slots w v) (hT : T.Distinct) (hfile : f.file = some g) (fid : Fid)
    (uname aname : Bytes) :
    Computes F env Done (attachFile fid aref uname aname) w n
      (Direct.attachFile F fid uname aname g) v := by
  have hlocked : ∀ {r : Ret} {w' : World φ} {v' : View φ}, At hgot.table T.slots w' v' →
      Locked aref f r w' r v' := fun h' => ⟨rfl, T, hgot.sfid, hT, h'⟩
  refine Prog.Computes.then (Q := Locked aref f)
    (Prog.Computes.next (World.exec_getFile h.sfid _) ?_)
    fun a w' n' b v' hlocked => hlocked.unlock hgot.owner
  dsimp only
  rw [hfile]
  obtain ⟨id, kind⟩ := g
  cases kind with
  | auth =>
      refine (call_computes h (.success ⟨id, .auth⟩)).same ?_
      intro ok w₁ n₁ v₁ h₁
      cases ok with
      | false => exact .ret (hlocked h₁)
      | true =>
          exact (attachWith_computes h₁ (Table.slots_eq_none (s := T)) uname aname _).mono
            fun a w' b v' hset => Settled.locked hgot hT hset
  | plain => exact .ret (hlocked h)
  | readdir => exact .ret (hlocked h)

theorem attach_computes (h : At T T.slots w v) (hT : T.Distinct) (fid afid : Fid)
    (uname aname : Bytes) :
    Computes F env Done (attach fid afid uname aname) w n
      (Direct.attach F fid afid uname aname) v := by
  unfold attach Direct.attach
  split
  · exact (attachWith_computes h Table.slots_eq_none uname aname none).mono
      fun a w' b v' hset => Settled.done hset hT
  · refine (getRef_computes h afid).bind ?_
    intro r w₁ n₁ found v₁ hfound
    cases found with
    | none =>
        obtain ⟨rfl, h₁⟩ := hfound
        exact .ret ⟨rfl, T, h₁, hT⟩
    | some p =>
        obtain ⟨f, d⟩ := p
        obtain ⟨aref, rfl, hgot, h₁⟩ := hfound
        refine Prog.Computes.next (World.exec_getFile h₁.sfid _) ?_
        dsimp only
        cases hfile : f.file with
        | none =>
            refine assign_computes ⟨rfl, hgot.table, ?_, hT⟩
            rw [Table.slots_set hT hgot.refs, ← hfile]
            exact h₁.assign afid _
        | some g => exact attachFile_computes hgot h₁ hT hfile fid uname aname

/-! ## `Walk` -/

theorem walkEnt_computes (h : At (T.set ref f) S w v) (hent : f.ent = some d) (same : Bool)
    (names : List Bytes) :
    Computes F env (Same (T.set ref f) S) (walkEnt ref same names) w n
      (Direct.walkEnt F d same names) v := by
  unfold walkEnt Direct.walkEnt
  split
  · split
    · exact .ret ⟨rfl, h⟩
    · refine h.ent hent fun n₁ => ?_
      refine (call_computes h (.walk d [])).same ?_
      rintro ⟨qids, e, err⟩ w₁ n₂ v₁ h₁
      dsimp only
      cases ensureNonNil e err with
      | error err => exact .ret ⟨rfl, h₁⟩
      | ok d' => exact .ret ⟨rfl, h₁⟩
  · refine h.ent hent fun n₁ => ?_
    refine (isDir_computes h d).same ?_
    intro dir w₁ n₂ v₁ h₁
    cases dir with
    | false => exact .ret ⟨rfl, h₁⟩
    | true =>
        refine h₁.ent hent fun n₃ => ?_
        refine (call_computes h₁ (.walk d names)).same ?_
        rintro ⟨qids, e, err⟩ w₂ n₄ v₂ h₂
        dsimp only
        cases ensureNonNil e err with
        | error err => exact .ret ⟨rfl, h₂⟩
        | ok d' =>
            dsimp only
            split
            · exact .ret ⟨rfl, h₂⟩
            · exact .ret ⟨rfl, h₂⟩

/-- The fid moves. -/
theorem walkLocked_computes_same (hgot : Got T fid ref f d) (h : At hgot.table T.slots w v)
    (names : List Bytes) :
    Computes F env (fun a w' b v' => a.2 = (ref, none) ∧ Inside T fid ref a.1 w' b v')
      (walkLocked ref none names) w n (Direct.walkFrom F fid fid f d names) v := by
  unfold Direct.walkFrom
  rw [decide_eq_true rfl]
  refine (walkEnt_computes h hgot.ent true names).same ?_
  intro r w₁ n₁ v₁ h₁
  cases r with
  | error r => exact .ret ⟨rfl, hgot.held h₁⟩
  | ok p =>
      obtain ⟨qids, d'⟩ := p
      dsimp only
      split
      · exact .ret ⟨rfl, hgot.held h₁⟩
      · rw [if_pos rfl]
        refine h₁.ent hgot.ent fun n₂ => ?_
        refine (call_computes h₁ (.clunk d)).same fun err w₂ n₃ v₂ h₂ => ?_
        refine (h₂.setEnt (some d')).next fun w₃ n₄ h₃ => ?_
        refine assign_computes ⟨rfl, rfl, { f with owner := some 0, ent := some d' }, rfl, ?_⟩
        have h₄ := h₃.assign fid (some { f with ent := some d' })
        rwa [← hgot.owner]

/-- How `walkLocked` leaves a new fid: in place, with the other one unlocked; or
still to be taken back. -/
def Stepped (T : Table) (hgot : Got T fid ref f d) (newfid : Fid) (a : Ret × Nat × Option Nat)
    (w : World φ) (b : Ret) (v : View φ) : Prop :=
  a.1 = b ∧
    (a.2 = (T.next, none) ∧ (∃ d', At (T.fresh newfid ⟨some 0, some d', none, 0⟩)
        (Function.update T.slots newfid (some ⟨none, some d', none, 0⟩)) w v) ∨
      a.2 = (ref, some T.next) ∧
        At (hgot.table.fresh newfid ⟨some 0, none, none, 0⟩) T.slots w v)

/-- The one that is locked, beside a new one. -/
theorem Got.beside (hgot : Got T fid ref f d) {g : SFid}
    (h : At (hgot.table.fresh newfid g) S w v) :
    At ((T.fresh newfid g).set ref { f with owner := some 0 }) S w v := by
  rwa [Table.fresh_set (T.bound hgot.refs)] at h

theorem Got.released (hgot : Got T fid ref f d) (newfid : Fid) {g : SFid} :
    (T.fresh newfid g).set ref { f with owner := none } = T.fresh newfid g := by
  refine Table.set_self ?_
  rw [Table.fresh_sfid (T.bound hgot.refs), hgot.sfid, ← hgot.owner]

theorem walkLocked_computes_new (hne : newfid ≠ fid) (hgot : Got T fid ref f d)
    (h : At (hgot.table.fresh newfid ⟨some 0, none, none, 0⟩) T.slots w v) (names : List Bytes) :
    Computes F env (Stepped T hgot newfid) (walkLocked ref (some T.next) names) w n
      (Direct.walkFrom F fid newfid f d names) v := by
  have hfresh : hgot.table.fresh newfid ⟨some 0, none, none, 0⟩ =
      (T.fresh newfid ⟨some 0, none, none, 0⟩).set ref { f with owner := some 0 } :=
    Table.fresh_set (T.bound hgot.refs)
  unfold Direct.walkFrom
  rw [decide_eq_false hne]
  refine (walkEnt_computes (hgot.beside h) hgot.ent false names).same ?_
  intro r w₁ n₁ v₁ h₁
  cases r with
  | error r => exact .ret ⟨rfl, Or.inr ⟨rfl, hfresh ▸ h₁⟩⟩
  | ok p =>
      obtain ⟨qids, d'⟩ := p
      dsimp only
      split
      · exact .ret ⟨rfl, Or.inr ⟨rfl, hfresh ▸ h₁⟩⟩
      · refine (h₁.unlock rfl).next fun w₂ n₂ h₂ => ?_
        have h₂' := hgot.released newfid ▸ h₂
        refine (h₂'.setEnt (some d')).next fun w₃ n₃ h₃ => ?_
        exact assign_computes ⟨rfl, Or.inl ⟨rfl, d', h₃.assign newfid _⟩⟩

theorem walkCleanup_done (hgot : Got T fid ref f d) (hT : T.Distinct)
    (href : T.refs newfid = none) {a : Ret × Nat × Option Nat} (h : Stepped T hgot newfid a w b v) :
    Ends F env (fun c w' => Done c w' b v) (do walkCleanup newfid a.2.1 a.2.2; return a.1) w n := by
  obtain ⟨r, refs⟩ := a
  obtain ⟨rfl, ⟨rfl, d', h⟩ | ⟨rfl, h⟩⟩ := h
  · exact (h.unlock rfl).last fun w₁ n₁ h₁ =>
      Settled.done ⟨rfl, Or.inr ⟨href, _, Or.inl h₁⟩⟩ hT
  · refine ((hgot.beside h).unlock rfl).last fun w₁ n₁ h₁ => ?_
    have h₁' := hgot.released newfid ▸ h₁
    refine (h₁'.delete newfid).last fun w₂ n₂ h₂ => ?_
    exact (At.unlock (T := (T.bindNew 0 newfid).unbind newfid) h₂ rfl).last fun w₃ n₃ h₃ =>
      Settled.done ⟨rfl, Or.inr ⟨href, _, Or.inr h₃⟩⟩ hT

theorem walkRef_computes (hne : newfid ≠ fid) (h : At T S w v)
    (hfree : S newfid = none ↔ T.refs newfid = none) :
    Computes F env (fun r w' b v' => ∃ r', Reserved T S newfid r' w' b v' ∧ r = r'.map some)
      (walkRef fid newfid) w n (Direct.refused newfid) v := by
  unfold walkRef
  rw [if_neg hne]
  refine (newRef_computes h hfree).then ?_
  intro r w' n' b v' hres
  cases r with
  | error err => exact ⟨_, hres, rfl⟩
  | ok ref => exact ⟨_, hres, rfl⟩

theorem walk_computes (h : At T T.slots w v) (hT : T.Distinct) (fid newfid : Fid)
    (names : List Bytes) :
    Computes F env Done (walk fid newfid names) w n (Direct.walk F fid newfid names) v := by
  unfold walk Direct.walk
  split
  · exact .ret ⟨rfl, T, h, hT⟩
  · refine (getRef_computes h fid).bind ?_
    intro r w₁ n₁ found v₁ hfound
    cases found with
    | none =>
        obtain ⟨rfl, h₁⟩ := hfound
        exact .ret ⟨rfl, T, h₁, hT⟩
    | some p =>
        obtain ⟨f, d⟩ := p
        obtain ⟨ref, rfl, hgot, h₁⟩ := hfound
        dsimp only
        by_cases hne : newfid = fid
        · subst hne
          rw [if_pos rfl]
          unfold walkRef
          rw [if_pos rfl]
          refine (walkLocked_computes_same hgot h₁ names).then ?_
          rintro ⟨r, refs⟩ w₂ n₂ b v₂ ⟨rfl, hinside⟩
          exact unlock_done hgot.refs hT hinside
        · rw [if_neg hne]
          refine (walkRef_computes hne h₁ (Table.slots_eq_none (s := T))).bind ?_
          rintro _ w₂ n₂ refused v₂ ⟨r, hres, rfl⟩
          cases refused with
          | some err =>
              obtain ⟨rfl, h₂⟩ := hres
              exact .ends (unlock_done hgot.refs hT (hgot.held h₂))
          | none =>
              obtain ⟨rfl, hfree, h₂⟩ := hres
              refine (walkLocked_computes_new hne hgot h₂ names).then ?_
              intro a w₃ n₃ b v₃ hstepped
              exact walkCleanup_done hgot hT hfree hstepped

end NewFids

/-! ## Operations, alone and in sequence -/

section Runs

variable {φ : Type} {F : FileSys φ} {w : World φ} {v : View φ} {T : Table} {n : Nat}
  {env : Nat → Unit}

theorem prog_computes (h : At T T.slots w v) (hT : T.Distinct) (op : Op) :
    Computes F env Done op.prog w n (op.direct F) v := by
  cases op with
  | auth afid uname aname => exact auth_computes h hT afid uname aname
  | attach fid afid uname aname => exact attach_computes h hT fid afid uname aname
  | clunk fid => exact delete_computes h hT fid false
  | remove fid => exact delete_computes h hT fid true
  | walk fid newfid names => exact walk_computes h hT fid newfid names
  | read fid len offset =>
      exact transfer_computes h hT fid _ _ fun g h' => call_computes h' (.read g len offset)
  | write fid p offset =>
      exact transfer_computes h hT fid _ _ fun g h' => call_computes h' (.write g p offset)
  | «open» fid mode => exact open_computes h hT fid mode
  | create parent name perm mode => exact create_computes h hT parent name perm mode
  | stat fid => exact stat_computes h hT fid
  | wstat fid dir => exact wstat_computes h hT fid dir

end Runs

end Refines

/-- An operation begins with an empty buffer. -/
def Op.perform {φ : Type} (F : FileSys φ) (op : Op) : Direct φ Ret := fun v =>
  op.direct F { v with data := [] }

variable {φ : Type}

theorem World.run_of_perform {F : FileSys φ} {op : Op} {w w' : World φ} {r : Ret}
    (h : w.perform F op = some (r, w')) :
    ∃ n, run (World.exec F) 0 (fun _ => ()) op.prog ⟨start w.store 0 op, w.disk, []⟩ 0 =
      .returned r w' n := by
  unfold World.perform at h
  split at h
  · rename_i r₁ w₁ n hrun
    cases h
    exact ⟨n, hrun⟩
  · cases h

theorem perform_agrees (F : FileSys φ) (op : Op) :
    Agrees (fun w => w.store.Distinct) World.view (fun w => w.perform F op) (op.perform F) := by
  have hcomputes : ∀ w : World φ, w.store.Distinct →
      Refines.Computes F (fun _ => ()) Refines.Done op.prog ⟨start w.store 0 op, w.disk, []⟩ 0
        (op.direct F) { w.view with data := [] } :=
    fun w hw => Refines.prog_computes (w := ⟨start w.store 0 op, w.disk, []⟩)
      (T := w.store.toTable) ⟨rfl, rfl, rfl, rfl, rfl⟩ hw op
  constructor
  · intro w hw
    cases hop : op.perform F w.view with
    | none =>
        cases hperform : w.perform F op with
        | none => rfl
        | some r =>
            obtain ⟨n, hrun⟩ := World.run_of_perform hperform
            exact absurd hrun ((hcomputes w hw).not_returned hop)
    | some r =>
        obtain ⟨_, w', n, hrun, rfl, T, hat, -⟩ := (hcomputes w hw).returned hop
        rw [World.perform_of_run hrun]
        exact congrArg (fun v => some (r.1, v)) hat.view
  · intro w r w' hw hperform
    obtain ⟨n, hrun⟩ := World.run_of_perform hperform
    cases hop : op.perform F w.view with
    | none => exact absurd hrun ((hcomputes w hw).not_returned hop)
    | some r' =>
        obtain ⟨_, w'', n', hrun', -, T, hat, hT⟩ := (hcomputes w hw).returned hop
        rw [hrun] at hrun'
        cases hrun'
        exact hat.table ▸ hT

/-- Operations one after another, with their results; undefined if one of them
does not return. -/
def World.performAll (F : FileSys φ) (ops : List Op) : StateT (World φ) Option (List Ret) :=
  ops.mapM fun op w => w.perform F op

def View.performAll (F : FileSys φ) (ops : List Op) : Direct φ (List Ret) :=
  ops.mapM (Op.perform F)

/-- From the empty table, a sequence of operations returns what the functions
return, and leaves what they leave; where one of the functions is undefined its
operation does not return. -/
theorem session_direct (F : FileSys φ) (fs : φ) (ops : List Op) :
    (World.performAll F ops (.new fs)).map (Prod.map id World.view) =
      View.performAll F ops ⟨fun _ => none, .new fs, 0, []⟩ := by
  have hinit : (World.new fs).store.Distinct := by
    rintro _ _ _ ⟨⟩
  exact (Agrees.mapM (perform_agrees F) ops).result hinit

end P9p.Session
