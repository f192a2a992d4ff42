/-
# A session over a file system that answers

`P9p.Session` leaves open what the file system returns.  Here it is a
`FileSys`: with a state, and an answer to every call.

    sFileSys F        the session, as `Handle` calls it
      perform F op    one operation, run alone
        World.exec    its commands: on the fid table, and calls
          F.reply     the answer to a call: of a `Readdir`, or of `F`

**`Read` and `Write`.**  On a fid that is open in a fitting mode they return
what the file returns (`read_opened`, `write_opened`), and the fid stays open.
If the call panics they do not return (`read_hangs`, `write_hangs`).
-/
import P9p.Handler
import P9p.Readdir
import P9p.Session

namespace P9p.Session

open Conc

variable {n : Int} {c : Call} {fid : Fid} {p : Bytes} {mode : Flag} {refuses : Flag → Bool}
  {denied : Err} {io : File → M (Int × Option Err)}

/-! ## The model -/

/-- A file system.  `answer n c` is its answer to the call `c`, where `n` is the
number of the handle, if the call returns one; with the answer comes what `Read`
puts into its buffer.  It is `none` if the call panics.  `next n` is the function
that the `OpenDir` with number `n` has returned. -/
structure FileSys (φ : Type) where
  answer (n : Nat) (c : Call) : φ → Option (c.Reply × Bytes × φ)
  next (n : Nat) : ReadNext φ

/-- The state of the file system, and the `Readdir`s of the session. -/
structure Disk (φ : Type) where
  fs : φ
  readdirs : Nat → Readdir

/-- `data` is what the last call has put into the buffer of `Read`. -/
structure World (φ : Type) where
  store : Store
  disk : Disk φ
  data : Bytes

variable {φ : Type}

/-- A session that has not been used yet. -/
def Disk.new (fs : φ) : Disk φ := ⟨fs, fun _ => newReaddir⟩

def World.new (fs : φ) : World φ := ⟨init, .new fs, []⟩

/-- A `Readdir` answers for itself. -/
def FileSys.reply (F : FileSys φ) (n : Nat) :
    (c : Call) → Disk φ → Option (c.Reply × Bytes × Disk φ)
  | .read ⟨id, .readdir⟩ len offset, k =>
      match (k.readdirs id).read (F.next id) len offset k.fs with
      | (p, err, rd, fs) =>
          some (((p.length : Int), err), p, ⟨fs, Function.update k.readdirs id rd⟩)
  | .write ⟨_, .readdir⟩ _ _, k => some (((0 : Int), some (.rerror (lit "invalid"))), [], k)
  | c, k =>
      match F.answer n c k.fs with
      | none => none
      | some (r, p, fs) => some (r, p, { k with fs })

/-- A command.  Only when a call returns is anything asked of the file system. -/
def World.exec (F : FileSys φ) (w : World φ) (t : Nat) :
    (c : Cmd) → Unit → Option (c.Res × World φ)
  | .leave c, _ =>
      match F.reply w.store.calls c w.disk with
      | none => none
      | some (r, p, disk) =>
          some (c.answer w.store.calls r,
            ⟨w.store.answered t c (c.answer w.store.calls r), disk, p⟩)
  | c, _ => (Session.exec w.store t c agreeable).map fun (r, store) => (r, { w with store })

/-- One operation, from beginning to end; `none` if it does not return. -/
def World.perform (F : FileSys φ) (w : World φ) (op : Op) : Option (Ret × World φ) :=
  match run (World.exec F) 0 (fun _ => ()) op.prog ⟨start w.store 0 op, w.disk, []⟩ 0 with
  | .returned r w' _ => some (r, w')
  | _ => none

/-- A method of the session.  One that does not return takes the connection with
it; `Handle` never gets its result. -/
def World.method {α : Type} (F : FileSys φ) (op : Op) (get : Ret → Bytes → Option α) :
    Method (World φ) α := fun w =>
  match w.perform F op with
  | none => (.error .closed, w)
  | some (r, w') =>
      match r.err, get r w'.data with
      | some err, _ => (.error err, w')
      | none, some a => (.ok a, w')
      | none, none => (.error .closed, w')

/-- `SFileSys`. -/
def sFileSys (F : FileSys φ) : SessionOps (World φ) where
  auth afid uname aname := World.method F (.auth afid uname aname) fun
    | .qid q _, _ => some q
    | _, _ => none
  attach fid afid uname aname := World.method F (.attach fid afid uname aname) fun
    | .qid q _, _ => some q
    | _, _ => none
  clunk fid := World.method F (.clunk fid) fun _ _ => some ()
  remove fid := World.method F (.remove fid) fun _ _ => some ()
  walk fid newfid names := World.method F (.walk fid newfid names) fun
    | .qids qs _, _ => some qs
    | _, _ => none
  read fid p offset := World.method F (.read fid p.length offset) fun
    | .count n _, data => some (n, ⟨overwrite p data, overwrite_length p data⟩)
    | _, _ => none
  write fid p offset := World.method F (.write fid p offset) fun
    | .count n _, _ => some n
    | _, _ => none
  «open» fid mode := World.method F (.open fid mode) fun
    | .opened q iounit _, _ => some (q, iounit)
    | _, _ => none
  create parent name perm mode := World.method F (.create parent name perm mode) fun
    | .opened q iounit _, _ => some (q, iounit)
    | _, _ => none
  stat fid := World.method F (.stat fid) fun
    | .stat dir _, _ => some dir
    | _, _ => none
  wstat fid dir := World.method F (.wstat fid dir) fun _ _ => some ()

/-- Calls that the session does not answer for a `Readdir`. -/
def Call.Passed : Call → Prop
  | .read ⟨_, .readdir⟩ _ _ | .write ⟨_, .readdir⟩ _ _ => False
  | _ => True

theorem FileSys.reply_passed {F : FileSys φ} {n : Nat} {k : Disk φ} (hc : c.Passed) :
    F.reply n c k = (F.answer n c k.fs).map fun (r, p, fs) => (r, p, { k with fs }) := by
  unfold FileSys.reply
  split
  · exact hc.elim
  · exact hc.elim
  · split <;> simp_all

theorem World.perform_of_run {F : FileSys φ} {op : Op} {w w' : World φ} {r : Ret} {n : Nat}
    (h : run (World.exec F) 0 (fun _ => ()) op.prog ⟨start w.store 0 op, w.disk, []⟩ 0 =
      .returned r w' n) : w.perform F op = some (r, w') := by
  rw [World.perform, h]

theorem sFileSys_read {F : FileSys φ} {w w' : World φ} {offset : Int64}
    (h : w.perform F (.read fid p.length offset) = some (.count n none, w')) :
    (sFileSys F).read fid p offset w =
      (.ok (n, ⟨overwrite p w'.data, overwrite_length p w'.data⟩), w') := by
  simp only [sFileSys, World.method, h, Ret.err]

theorem sFileSys_write {F : FileSys φ} {w w' : World φ} {offset : Int64}
    (h : w.perform F (.write fid p offset) = some (.count n none, w')) :
    (sFileSys F).write fid p offset w = (.ok n, w') := by
  simp only [sFileSys, World.method, h, Ret.err]

theorem sFileSys_open {F : FileSys φ} {w w' : World φ} {q : Qid} {iounit : UInt32}
    (h : w.perform F (.open fid mode) = some (.opened q iounit none, w')) :
    (sFileSys F).open fid mode w = (.ok (q, iounit), w') := by
  simp only [sFileSys, World.method, h, Ret.err]

/-! ## `Read` and `Write` -/

/-- The fid is bound, nobody has locked it, and it is open. -/
structure OpenFid (s : Store) (fid : Fid) (f : File) (mode : Flag) : Prop where
  named : fid ≠ noFid
  entry : ∃ ref d, s.refs fid = some ref ∧ s.sfid ref = ⟨none, some d, some f, mode⟩

section Transfer

variable {F : FileSys φ} {w : World φ} {env : Nat → Unit} {i ref d : Nat} {f : SFid}

abbrev Ends {α : Type} (F : FileSys φ) (env : Nat → Unit) (Q : α → World φ → Prop) (p : M α)
    (w : World φ) (i : Nat) : Prop :=
  p.Ends (World.exec F) 0 env Q w i

theorem World.exec_getEnt (hsfid : w.store.sfid ref = f) (e : Unit) :
    World.exec F w 0 (.getEnt ref) e = some (f.ent, w) := by
  subst hsfid
  rfl

theorem World.exec_getFile (hsfid : w.store.sfid ref = f) (e : Unit) :
    World.exec F w 0 (.getFile ref) e = some (f.file, w) := by
  subst hsfid
  rfl

theorem World.exec_getMode (hsfid : w.store.sfid ref = f) (e : Unit) :
    World.exec F w 0 (.getMode ref) e = some (f.mode, w) := by
  subst hsfid
  rfl

theorem World.exec_unlock {t : Nat} (hsfid : w.store.sfid ref = f) (howner : f.owner = some t)
    (e : Unit) :
    World.exec F w 0 (.unlock ref) e =
      some ((), { w with store := w.store.modify ref fun g => { g with owner := none } }) := by
  subst hsfid
  simp only [World.exec, Session.exec, howner]
  rfl

theorem ent_ends (hsfid : w.store.sfid ref = f) (hent : f.ent = some d) :
    Ends F env (fun d' w' => d' = d ∧ w' = w) (ent ref) w i := by
  refine Prog.Ends.cmd (World.exec_getEnt hsfid _) ?_
  rw [hent]
  exact ⟨rfl, rfl⟩

/-- A call changes nothing in the fid table. -/
theorem call_ends {r : c.Reply} {disk : Disk φ}
    (h : F.reply w.store.calls c w.disk = some (r, p, disk)) :
    Ends F env (fun res w' => res = c.answer w.store.calls r ∧ w'.disk = disk ∧ w'.data = p ∧
      w'.store.toTable = w.store.toTable ∧ w'.store.calls = w.store.calls + 1) (call c) w i := by
  have hleave : World.exec F { w with store := w.store.record (.enter 0 c) } 0 (.leave c)
      (env (i + 1)) = some (c.answer w.store.calls r,
        ⟨(w.store.record (.enter 0 c)).answered 0 c (c.answer w.store.calls r), disk, p⟩) := by
    simp only [World.exec, Store.record, h]
    rfl
  exact Prog.Ends.cmd rfl ⟨_, _, hleave, rfl, rfl, rfl, rfl, rfl⟩

/-- Thread 0 has the mutex of `ref`. -/
def World.locked (w : World φ) (ref : Nat) : World φ :=
  { w with store := w.store.modify ref fun f => { f with owner := some 0 } }

theorem getRef_ends {ref d : Nat} (hfid : fid ≠ noFid) (href : w.store.refs fid = some ref)
    (howner : (w.store.sfid ref).owner = none) (hent : (w.store.sfid ref).ent = some d) :
    Ends F env (fun r w' => r = .ok ref ∧ w' = w.locked ref) (getRef fid) w i := by
  have hlock : World.exec F w 0 (.lock ref) (env (i + 1)) = some ((), w.locked ref) := by
    simp only [World.exec, Session.exec, howner]
    rfl
  have hget : World.exec F (w.locked ref) 0 (.getEnt ref) (env (i + 2)) =
      some (some d, w.locked ref) := by
    simp only [World.exec, Session.exec, World.locked, Store.modify, Function.update_self, hent]
    rfl
  rw [getRef, if_neg hfid]
  refine Prog.Ends.cmd rfl ?_
  rw [href]
  exact Prog.Ends.cmd hlock (Prog.Ends.cmd hget ⟨rfl, rfl⟩)

/-- What is done with the file of a fid that is open. -/
theorem transfer_opened {f : File} {Q : Int × Option Err → World φ → Prop}
    (h : OpenFid w.store fid f mode) (hmode : refuses mode = false)
    (hio : ∀ store i, store.calls = w.store.calls →
      Ends F env (fun res w' => Q res w' ∧ w'.store.toTable = store.toTable) (io f)
        { w with store } i) :
    Ends F env (fun r w' => ∃ n err w₁, r = .count n err ∧ Q (n, err) w₁ ∧
      w'.disk = w₁.disk ∧ w'.data = w₁.data ∧ OpenFid w'.store fid f mode)
      (transfer fid refuses denied io) w i := by
  obtain ⟨hfid, ref, d, href, hsfid⟩ := h
  have hlocked : (w.locked ref).store.sfid ref = ⟨some 0, some d, some f, mode⟩ := by
    simp only [World.locked, Store.modify, Function.update_self, hsfid]
  refine (getRef_ends hfid href (congrArg SFid.owner hsfid) (congrArg SFid.ent hsfid)).bind ?_
  rintro _ _ i' ⟨rfl, rfl⟩
  refine Prog.Ends.bind (Q := fun r w' => ∃ n err, r = .count n err ∧ Q (n, err) w' ∧
    w'.store.toTable = (w.locked ref).store.toTable) ?_ ?_
  · refine Prog.Ends.cmd (World.exec_getFile hlocked _)
      (Prog.Ends.cmd (World.exec_getMode hlocked _) ?_)
    rw [hmode]
    refine Prog.Ends.bind (Q := fun g w' => g = f ∧ w' = w.locked ref)
      (Prog.Ends.cmd (World.exec_getFile hlocked _) ⟨rfl, rfl⟩) ?_
    rintro _ _ i₁ ⟨rfl, rfl⟩
    refine (hio (w.locked ref).store i₁ rfl).bind ?_
    rintro ⟨n, err⟩ w' - ⟨hQ, htable⟩
    exact ⟨n, err, rfl, hQ, htable⟩
  · rintro r w₁ i₁ ⟨n, err, rfl, hQ, htable⟩
    have hlocked₁ := (congrArg (Table.sfid · ref) htable).trans hlocked
    refine Prog.Ends.cmd (World.exec_unlock hlocked₁ rfl _)
      ⟨n, err, w₁, rfl, hQ, rfl, rfl, hfid, ref, d, ?_, ?_⟩
    · exact (congrArg (Table.refs · fid) htable).trans href
    · simp only [Store.modify, Function.update_self, hlocked₁]

/-- An operation that transfers, whose call returns `n` and `err`. -/
theorem perform_transfer {op : Op} {f : File} {err : Option Err} {disk : Disk φ}
    (hop : op.prog = transfer fid refuses denied io) (h : OpenFid w.store fid f mode)
    (hmode : refuses mode = false)
    (hio : ∀ store i, store.calls = w.store.calls →
      Ends F (fun _ => ()) (fun res w' => res = (n, err) ∧ w'.disk = disk ∧ w'.data = p ∧
        w'.store.toTable = store.toTable ∧ w'.store.calls = store.calls + 1)
        (io f) ⟨store, w.disk, []⟩ i) :
    ∃ store, w.perform F op = some (.count n err, ⟨store, disk, p⟩) ∧ OpenFid store fid f mode := by
  have hends : Ends F (fun _ => ()) (fun r w' => r = .count n err ∧ w'.disk = disk ∧ w'.data = p ∧
      OpenFid w'.store fid f mode) op.prog ⟨start w.store 0 op, w.disk, []⟩ 0 := by
    rw [hop]
    refine (transfer_opened (Q := fun res w' => res = (n, err) ∧ w'.disk = disk ∧ w'.data = p)
      (w := ⟨start w.store 0 op, w.disk, []⟩) ⟨h.named, h.entry⟩ hmode
      fun store i hcalls => ?_).mono ?_
    · refine (hio store i hcalls).mono ?_
      rintro res w' ⟨hres, hdisk, hdata, htable, -⟩
      exact ⟨⟨hres, hdisk, hdata⟩, htable⟩
    · rintro r w' ⟨n', err', w₁, rfl, ⟨heq, hdisk, hdata⟩, hdisk', hdata', hopened⟩
      cases heq
      exact ⟨rfl, hdisk'.trans hdisk, hdata'.trans hdata, hopened⟩
  obtain ⟨r, ⟨store, _, _⟩, i, hrun, rfl, rfl, rfl, hopened⟩ := hends.run
  exact ⟨store, World.perform_of_run hrun, hopened⟩

/-- `Read` on a fid that is open for it. -/
theorem read_opened {f : File} (h : OpenFid w.store fid f mode) (hmode : mode &&& oexec ≠ owrite)
    {len : Nat} {offset : Int64} {err : Option Err} {disk : Disk φ}
    (hread : F.reply w.store.calls (.read f len offset) w.disk = some ((n, err), p, disk)) :
    ∃ store, w.perform F (.read fid len offset) = some (.count n err, ⟨store, disk, p⟩) ∧
      OpenFid store fid f mode := by
  refine perform_transfer rfl h (decide_eq_false hmode)
    fun store i hcalls => ?_
  rw [← hcalls] at hread
  exact call_ends (w := ⟨store, w.disk, []⟩) hread

/-- `Write` on a fid that is open for it. -/
theorem write_opened {f : File} (h : OpenFid w.store fid f mode)
    (hmode : mode &&& oexec = owrite ∨ mode &&& oexec = ordwr) {data : Bytes} {offset : Int64}
    {err : Option Err} {disk : Disk φ}
    (hwrite : F.reply w.store.calls (.write f data offset) w.disk = some ((n, err), p, disk)) :
    ∃ store, w.perform F (.write fid data offset) = some (.count n err, ⟨store, disk, p⟩) ∧
      OpenFid store fid f mode := by
  have hallowed : ¬ (mode &&& oexec ≠ owrite ∧ mode &&& oexec ≠ ordwr) :=
    fun hne => hmode.elim hne.1 hne.2
  refine perform_transfer rfl h (decide_eq_false hallowed)
    fun store i hcalls => ?_
  rw [← hcalls] at hwrite
  exact call_ends (w := ⟨store, w.disk, []⟩) hwrite

/-- A call that panics. -/
theorem call_hangs (h : F.reply w.store.calls c w.disk = none) :
    ∃ c' w', run (World.exec F) 0 env (call c) w i = .blocked c' w' := by
  have hleave : World.exec F { w with store := w.store.record (.enter 0 c) } 0 (.leave c)
      (env (i + 1)) = none := by
    simp only [World.exec, Store.record, h]
  exact ⟨_, _, (run_then rfl).trans (run_blocked hleave)⟩

/-- An operation that transfers, whose call panics. -/
theorem perform_transfer_hangs {op : Op} {f : File}
    (hop : op.prog = transfer fid refuses denied io) (h : OpenFid w.store fid f mode)
    (hmode : refuses mode = false)
    (hio : ∀ store i, store.calls = w.store.calls →
      ∃ c w', run (World.exec F) 0 (fun _ => ()) (io f) ⟨store, w.disk, []⟩ i = .blocked c w') :
    w.perform F op = none := by
  obtain ⟨hfid, ref, d, href, hsfid⟩ := h
  let w₀ : World φ := ⟨start w.store 0 op, w.disk, []⟩
  have hlocked : (w₀.locked ref).store.sfid ref = ⟨some 0, some d, some f, mode⟩ := by
    simp only [w₀, World.locked, Store.modify, Function.update_self, start, Store.record, hsfid]
  have hends : Ends F (fun _ => ()) (fun r w' => r = .ok ref ∧ w' = w₀.locked ref)
      (getRef fid) w₀ 0 :=
    getRef_ends hfid href (congrArg SFid.owner hsfid) (congrArg SFid.ent hsfid)
  obtain ⟨_, _, i, hget, rfl, rfl⟩ := hends.run
  obtain ⟨c, w', hblocked⟩ := hio (w₀.locked ref).store (i + 1 + 1 + 1) rfl
  have hbody : run (World.exec F) 0 (fun _ => ()) (transfer fid refuses denied io) w₀ 0 =
      .blocked c w' := by
    refine (run_bind_returned hget _).trans (run_bind_blocked ?_ _)
    refine (run_then (World.exec_getFile hlocked _)).trans ?_
    refine (run_then (World.exec_getMode hlocked _)).trans ?_
    rw [hmode]
    have hfile : run (World.exec F) 0 (fun _ => ()) (file ref) (w₀.locked ref) (i + 1 + 1) =
        .returned f (w₀.locked ref) (i + 1 + 1 + 1) :=
      run_then (World.exec_getFile hlocked _)
    exact (run_bind_returned hfile _).trans (run_bind_blocked hblocked _)
  rw [World.perform, hop, hbody]

theorem read_hangs {f : File} (h : OpenFid w.store fid f mode) (hmode : mode &&& oexec ≠ owrite)
    {len : Nat} {offset : Int64}
    (hread : F.reply w.store.calls (.read f len offset) w.disk = none) :
    w.perform F (.read fid len offset) = none := by
  refine perform_transfer_hangs rfl h (decide_eq_false hmode) fun store i hcalls => ?_
  rw [← hcalls] at hread
  exact call_hangs (w := ⟨store, w.disk, []⟩) hread

theorem write_hangs {f : File} (h : OpenFid w.store fid f mode)
    (hmode : mode &&& oexec = owrite ∨ mode &&& oexec = ordwr) {data : Bytes} {offset : Int64}
    (hwrite : F.reply w.store.calls (.write f data offset) w.disk = none) :
    w.perform F (.write fid data offset) = none := by
  have hallowed : ¬ (mode &&& oexec ≠ owrite ∧ mode &&& oexec ≠ ordwr) :=
    fun hne => hmode.elim hne.1 hne.2
  refine perform_transfer_hangs rfl h (decide_eq_false hallowed) fun store i hcalls => ?_
  rw [← hcalls] at hwrite
  exact call_hangs (w := ⟨store, w.disk, []⟩) hwrite

end Transfer

/-! ## `Open` -/

section Open

variable {F : FileSys φ} {w : World φ} {env : Nat → Unit} {i ref d : Nat} {f : SFid}

/-- The answers that `Open` gets on a directory: it is one, `OpenDir` succeeds,
and then the qid is asked for again. -/
structure OpensDir (F : FileSys φ) (n d : Nat) (disk disk' : Disk φ) (q : Qid) : Prop where
  answers : ∃ q₀ p₀ disk₀ p₁ disk₁ p₂, F.reply n (.qid d) disk = some (q₀, p₀, disk₀) ∧
    q₀.type &&& qtdir ≠ 0 ∧
    F.reply (n + 1) (.openDir d) disk₀ = some ((none : Option Err), p₁, disk₁) ∧
    F.reply (n + 2) (.qid d) disk₁ = some (q, p₂, disk')

theorem openEnt_directory (hsfid : w.store.sfid ref = f) (hent : f.ent = some d) {q₀ : Qid}
    {p₀ p₁ : Bytes} {disk₀ disk₁ : Disk φ}
    (hq : F.reply w.store.calls (.qid d) w.disk = some (q₀, p₀, disk₀))
    (hdir : q₀.type &&& qtdir ≠ 0)
    (ho : F.reply (w.store.calls + 1) (.openDir d) disk₀ = some ((none : Option Err), p₁, disk₁)) :
    Ends F env (fun r w' => r = .ok ⟨w.store.calls + 1, .readdir⟩ ∧ w'.disk = disk₁ ∧
      w'.store.toTable = w.store.toTable ∧ w'.store.calls = w.store.calls + 2)
      (openEnt (ent ref) mode) w i := by
  have hisDir : ∀ i, Ends F env (fun b w' => b = true ∧ w'.disk = disk₀ ∧
      w'.store.toTable = w.store.toTable ∧ w'.store.calls = w.store.calls + 1) (isDir d) w i := by
    intro i
    refine (call_ends hq).bind ?_
    rintro _ w' _ ⟨rfl, hdisk, -, htable, hcalls⟩
    exact ⟨decide_eq_true hdir, hdisk, htable, hcalls⟩
  refine (ent_ends hsfid hent).bind ?_
  rintro _ _ i₁ ⟨rfl, rfl⟩
  refine (hisDir i₁).bind ?_
  rintro _ w₁ i₂ ⟨rfl, hdisk₁, htable₁, hcalls₁⟩
  have hsfid₁ : w₁.store.sfid ref = f := (congrArg (Table.sfid · ref) htable₁).trans hsfid
  refine (ent_ends hsfid₁ hent).bind ?_
  rintro _ w₁ i₃ ⟨rfl, rfl⟩
  rw [← hcalls₁, ← hdisk₁] at ho
  refine (call_ends ho).bind ?_
  rintro _ w₂ i₄ ⟨rfl, hdisk₂, -, htable₂, hcalls₂⟩
  exact ⟨congrArg (fun n => Except.ok (File.mk n .readdir)) hcalls₁, hdisk₂, htable₂.trans htable₁,
    by rw [hcalls₂, hcalls₁]⟩

theorem openLocked_directory (hsfid : w.store.sfid ref = f) (hent : f.ent = some d)
    (hfile : f.file = none) {q₀ : Qid} {p₀ p₁ : Bytes} {disk₀ disk₁ : Disk φ}
    (hq : F.reply w.store.calls (.qid d) w.disk = some (q₀, p₀, disk₀))
    (hdir : q₀.type &&& qtdir ≠ 0)
    (ho : F.reply (w.store.calls + 1) (.openDir d) disk₀ = some ((none : Option Err), p₁, disk₁)) :
    Ends F env (fun err w' => err = none ∧ w'.disk = disk₁ ∧ w'.store.calls = w.store.calls + 2 ∧
      w'.store.refs = w.store.refs ∧
      w'.store.sfid ref = { f with file := some ⟨w.store.calls + 1, .readdir⟩, mode })
      (openLocked ref mode) w i := by
  refine Prog.Ends.cmd (World.exec_getFile hsfid _) ?_
  rw [hfile]
  refine (openEnt_directory hsfid hent hq hdir ho).bind ?_
  rintro _ w₁ i₁ ⟨rfl, hdisk, htable, hcalls⟩
  have hrefs := congrArg Table.refs htable
  refine Prog.Ends.cmd rfl (Prog.Ends.cmd rfl ⟨rfl, hdisk, hcalls, hrefs, ?_⟩)
  · have hsfid₁ : w₁.store.sfid ref = f := (congrArg (Table.sfid · ref) htable).trans hsfid
    simp only [Store.modify, Function.update_self, hsfid₁]

/-- `Open` on a directory makes a `Readdir`. -/
theorem open_directory {m₀ : Flag} {disk' : Disk φ} {q : Qid} (hfid : fid ≠ noFid)
    (href : w.store.refs fid = some ref) (hsfid : w.store.sfid ref = ⟨none, some d, none, m₀⟩)
    (h : OpensDir F w.store.calls d w.disk disk' q) :
    ∃ store p, w.perform F (.open fid mode) = some (.opened q 0 none, ⟨store, disk', p⟩) ∧
      OpenFid store fid ⟨w.store.calls + 1, .readdir⟩ mode := by
  obtain ⟨q₀, p₀, disk₀, p₁, disk₁, p₂, hq, hdir, ho, hq'⟩ := h.answers
  have hends : Ends F (fun _ => ()) (fun r w' => r = .opened q 0 none ∧ w'.disk = disk' ∧
      OpenFid w'.store fid ⟨w.store.calls + 1, .readdir⟩ mode) («open» fid mode)
      ⟨start w.store 0 (.open fid mode), w.disk, []⟩ 0 := by
    refine (getRef_ends (w := ⟨start w.store 0 (.open fid mode), w.disk, []⟩) hfid href
      (congrArg SFid.owner hsfid) (congrArg SFid.ent hsfid)).bind ?_
    rintro _ _ i₁ ⟨rfl, rfl⟩
    have hlocked : (World.locked ⟨start w.store 0 (.open fid mode), w.disk, []⟩
      ref).store.sfid ref =
        ⟨some 0, some d, none, m₀⟩ := by
      simp only [World.locked, Store.modify, Function.update_self, start, Store.record, hsfid]
    refine Prog.Ends.bind (Q := fun r w' => r = .opened q 0 none ∧ w'.disk = disk' ∧
      w'.store.refs fid = some ref ∧
      w'.store.sfid ref = ⟨some 0, some d, some ⟨w.store.calls + 1, .readdir⟩, mode⟩) ?_ ?_
    · refine (openLocked_directory hlocked rfl rfl hq hdir ho).bind ?_
      rintro _ w₁ i₂ ⟨rfl, hdisk₁, hcalls₁, hrefs₁, hsfid₁⟩
      refine (ent_ends hsfid₁ rfl).bind ?_
      rintro _ w₂ i₃ ⟨rfl, rfl⟩
      rw [← show w₂.store.calls = w.store.calls + 2 from hcalls₁, ← hdisk₁] at hq'
      refine (call_ends hq').bind ?_
      rintro _ w₃ i₄ ⟨rfl, hdisk₃, -, htable₃, -⟩
      have hsfid₃ := (congrArg (Table.sfid · ref) htable₃).trans hsfid₁
      have href₃ : w₃.store.refs fid = some ref :=
        (congrArg (Table.refs · fid) htable₃).trans ((congrFun hrefs₁ fid).trans href)
      refine Prog.Ends.bind (Q := fun g w' => g = ⟨w.store.calls + 1, .readdir⟩ ∧ w' = w₃)
        (Prog.Ends.cmd (World.exec_getFile hsfid₃ _) ⟨rfl, rfl⟩) ?_
      rintro _ _ i₅ ⟨rfl, rfl⟩
      exact ⟨rfl, hdisk₃, href₃, hsfid₃⟩
    · rintro r w₁ i₂ ⟨rfl, hdisk, href₁, hsfid₁⟩
      refine Prog.Ends.cmd (World.exec_unlock hsfid₁ rfl _) ⟨rfl, hdisk, hfid, ref, d, href₁, ?_⟩
      simp only [Store.modify, Function.update_self, hsfid₁]
  obtain ⟨r, ⟨store, _, p⟩, i, hrun, rfl, rfl, hopened⟩ := hends.run
  exact ⟨store, p, World.perform_of_run hrun, hopened⟩

end Open

end P9p.Session
