/-
# `P9p.CFileSys.Mount` — a file system at the other end

What `CFileSys` is for: the `Dirent`s of a file system, used from the other end
of a connection.

    Plan ──▸ cEnt, fileRef ──▸ client ──▸ bytes ──▸ Handle ──▸ SFileSys ──▸ F

Here it is said without the connection and without the machinery of the session.
A method of the client is a function of the table of the fids and of `F`
(`held`); what it calls are the functions of `P9p.Session.Direct`.  An error is
the text of an error.

The file system `F` is any, and so is the program that uses it, with these
limits.  Every message fits into the msize.  The calls return: `F` does not
panic, does not return nil from `Attach`, can open what it has created, and
`Read` says how many bytes it has read.

**The result** (`mounted`): a program over the connection returns what it returns
without it, and leaves `F` and the table of the fids as it leaves them.
-/
import P9p.CFileSys.Calls
import P9p.Session.Direct

namespace P9p.CFileSys.Mount

open Conc Session

/-! ## A program without the connection -/

section Held

variable {φ α : Type} (F : Session.FileSys φ) (msize : Nat)

def op : Proc α → Op
  | .auth afid uname aname => .auth afid uname aname
  | .attach fid afid uname aname => .attach fid afid uname aname
  | .clunk fid => .clunk fid
  | .remove fid => .remove fid
  | .walk fid newfid names => .walk fid newfid names
  | .open fid mode => .open fid mode
  | .create parent name perm mode => .create parent name perm mode
  | .stat fid => .stat fid
  | .wstat fid dir => .wstat fid dir

def qid? : Ret → Option Qid
  | .qid q _ => some q
  | _ => none

def qids? : Ret → Option (List Qid)
  | .qids qs _ => some qs
  | _ => none

def opened? : Ret → Option (Qid × UInt32)
  | .opened q iounit _ => some (q, iounit)
  | _ => none

def dir? : Ret → Option Dir
  | .stat dir _ => some dir
  | _ => none

/-- What the method returns besides its error. -/
def value : Proc α → Ret → Option α
  | .auth _ _ _ | .attach _ _ _ _ => qid?
  | .clunk _ | .remove _ | .wstat _ _ => fun _ => some ()
  | .walk _ _ _ => qids?
  | .open _ _ | .create _ _ _ _ => opened?
  | .stat _ => dir?

/-- The result of a method. -/
def result (get : Ret → Option α) (r : Ret) : Except Err α :=
  match r.err, get r with
  | some err, _ => .error err
  | none, some a => .ok a
  | none, none => .error .closed

def outcome (p : Proc α) : Ret → Except Err α := result (value p)

/-- An error, as it is at the other end. -/
def remote (r : Except Err α) : Except Err α := r.mapError fun err => .rerror err.ename

def via (p : Proc α) : StateT (FsState (View φ)) Option (Except Err α) := fun fs =>
  ((op p).perform F fs.session).map fun (r, session) =>
    (remote (outcome p r), { fs with session })

def nextFid : StateT (FsState (View φ)) Option Fid := fun fs =>
  some (fs.nextfid + 1, { fs with nextfid := fs.nextfid + 1 })

def viaNew (x : Fid → StateT (FsState (View φ)) Option (Except Err α)) :
    StateT (FsState (View φ)) Option (Fid × Except Err α) := do
  let fid ← nextFid
  return (fid, ← x fid)

/-- The bytes that a `Read` can ask for. -/
def readCount (p : Bytes) : Nat := min (p.length % 2 ^ 32) (msize - 11)

/-- The count must be that of the bytes that were read. -/
def readFile (fid : Fid) (p : Bytes) (offset : Int64) :
    StateT (FsState (View φ)) Option (Except Err (Nat × Bytes × Option Err)) := fun fs =>
  match (Op.read fid (readCount msize p) offset).perform F fs.session with
  | some (.count _ (some err), session) => some (.error (.rerror err.ename), { fs with session })
  | some (.count n none, session) =>
      let data := session.data
      if n = data.length ∧ data.length ≤ readCount msize p then
        some (.ok (data.length, overwrite p data, if data.length = 0 then some .eof else none),
          { fs with session })
      else none
  | _ => none

/-- The count must be one that a message can state. -/
def writeFile (fid : Fid) (p : Bytes) (offset : Int64) :
    StateT (FsState (View φ)) Option (Except Err (Nat × Option Err)) := fun fs =>
  match (Op.write fid (p.take (msize - 23)) offset).perform F fs.session with
  | some (.count _ (some err), session) => some (.error (.rerror err.ename), { fs with session })
  | some (.count n none, session) =>
      if 0 ≤ n ∧ n < 2 ^ 32 then
        some (.ok (n.toNat, if n.toNat < p.length then some .shortWrite else none),
          { fs with session })
      else none
  | _ => none

/-- A call, by the functions.  The session of the `FsState` is the table of the
fids, and the file system. -/
def held : (c : Ask) → StateT (FsState (View φ)) Option c.Res
  | .newFid => nextFid
  | .auth uname aname => viaNew fun fid => via F (.auth fid uname aname)
  | .attach afid uname aname => viaNew fun fid => via F (.attach fid afid uname aname)
  | .walk fid names => viaNew fun next =>
      if names.length > 16 then return .error .walkLimit else via F (.walk fid next names)
  | .open fid mode => via F (.open fid mode)
  | .create fid name perm mode => via F (.create fid name perm mode)
  | .read fid p offset => readFile F msize fid p offset
  | .write fid p offset => writeFile F msize fid p offset
  | .stat fid => via F (.stat fid)
  | .wstat fid dir => via F (.wstat fid dir)
  | .clunk fid => via F (.clunk fid)
  | .remove fid => via F (.remove fid)

/-! ## The messages -/

/-- Request and response fit into the msize. -/
def Carries (v : View φ) (p : Proc α) : Prop :=
  p.toCall.message.Travels msize ∧ ∀ x ∈ (op p).perform F v,
    (reply ((outcome p x.1).map p.response)).Travels msize

instance (v : View φ) (p : Proc α) : Decidable (Carries F msize v p) :=
  inferInstanceAs (Decidable (_ ∧ ∀ x ∈ (op p).perform F v,
    (reply ((outcome p x.1).map p.response)).Travels msize))

/-- Of a call that carries data only an error need not fit. -/
def CarriesError (v : View φ) (op : Op) : Prop :=
  ∀ x ∈ op.perform F v, ∀ err ∈ x.1.err, (Message.rerror err.ename).Travels msize

instance (v : View φ) (op : Op) : Decidable (CarriesError F msize v op) :=
  inferInstanceAs (Decidable (∀ x ∈ op.perform F v, ∀ err ∈ x.1.err,
    (Message.rerror err.ename).Travels msize))

def Fits (fs : FsState (View φ)) : Ask → Prop
  | .newFid => True
  | .auth uname aname => Carries F msize fs.session (.auth (fs.nextfid + 1) uname aname)
  | .attach afid uname aname =>
      Carries F msize fs.session (.attach (fs.nextfid + 1) afid uname aname)
  | .walk fid names => names.length ≤ 16 →
      Carries F msize fs.session (.walk fid (fs.nextfid + 1) names)
  | .open fid mode => Carries F msize fs.session (.open fid mode)
  | .create fid name perm mode => Carries F msize fs.session (.create fid name perm mode)
  | .read fid p offset =>
      CarriesError F msize fs.session (.read fid (readCount msize p) offset)
  | .write fid p offset =>
      19 + p.length < 2 ^ 32 ∧
        CarriesError F msize fs.session (.write fid (p.take (msize - 23)) offset)
  | .stat fid => Carries F msize fs.session (.stat fid)
  | .wstat fid dir => Carries F msize fs.session (.wstat fid dir)
  | .clunk fid => Carries F msize fs.session (.clunk fid)
  | .remove fid => Carries F msize fs.session (.remove fid)

instance (fs : FsState (View φ)) : DecidablePred (Fits F msize fs)
  | .newFid => isTrue trivial
  | .auth _ _ | .attach _ _ _ | .open _ _ | .create _ _ _ _ | .stat _ | .wstat _ _ | .clunk _
  | .remove _ => inferInstanceAs (Decidable (Carries F msize _ _))
  | .walk _ _ => inferInstanceAs (Decidable (_ → Carries F msize _ _))
  | .read _ _ _ => inferInstanceAs (Decidable (CarriesError F msize _ _))
  | .write _ _ _ => inferInstanceAs (Decidable (_ ∧ CarriesError F msize _ _))

/-- A call as a step. -/
def serve (fs : FsState (View φ)) (_ : Nat) (c : Ask) (_ : Unit) :
    Option (c.Res × FsState (View φ)) :=
  if Fits F msize fs c then held F msize c fs else none

end Held

/-! ## Over the connection -/

section Connection

variable {φ α : Type} {F : Session.FileSys φ} {msize : Nat} {smsize : Int} {l : Link (World φ)}
  {v v' : View φ} {r : Ret}

theorem method_eq {w w' : World φ} {op : Op} {get : Ret → Bytes → Option α} {get' : Ret → Option α}
    (h : w.perform F op = some (r, w')) (hget : ∀ r data, get r data = get' r) :
    World.method F op get w = (result get' r, w') := by
  simp only [World.method, h, hget, result]
  cases r.err with
  | some err => rfl
  | none => cases get' r <;> rfl

theorem onSession_eq {p : Proc α} {w w' : World φ} (h : w.perform F (op p) = some (r, w')) :
    p.onSession (sFileSys F) w = (outcome p r, w') := by
  cases p
  all_goals
    simp only [Proc.onSession, sFileSys]
    refine method_eq h ?_
    intro r _
    cases r <;> rfl

/-- The two ends of a connection, and what they stand for. -/
structure Ends (msize : Nat) (l : Link (World φ)) (v : View φ) : Prop where
  ready : l.Ready msize
  distinct : l.state.store.Distinct
  view : l.state.view = v

/-- The session returns what the function does. -/
theorem Ends.performs (h : Ends msize l v) {op : Op} (hop : op.perform F v = some (r, v')) :
    ∃ w', l.state.perform F op = some (r, w') ∧ w'.store.Distinct ∧ w'.view = v' := by
  have hagrees := perform_agrees F op
  have hresult := hagrees.result h.distinct
  rw [h.view, hop] at hresult
  obtain ⟨⟨r', w'⟩, hperform, heq⟩ := Option.map_eq_some_iff.mp hresult
  cases heq
  exact ⟨w', hperform, hagrees.keeps h.distinct hperform, rfl⟩

/-- A call that carries no file data. -/
theorem Ends.calls (h : Ends msize l v) {p : Proc α} (hp : p.Short) (hc : Carries F msize v p)
    (hop : (op p).perform F v = some (r, v')) :
    ∃ l', p.onClient (Link.send (sFileSys F) smsize) l =
        (proxyResult (outcome p r), l') ∧ Ends msize l' v' := by
  obtain ⟨w', hperform, hdistinct, hview⟩ := h.performs hop
  obtain ⟨l', hsend, hready, hstate⟩ :=
    Link.send_proc h.ready smsize (onSession_eq hperform) hc.1 (hc.2 _ hop)
  refine ⟨l', ?_, hready, hstate ▸ hdistinct, hstate ▸ hview⟩
  generalize outcome p r = res at hsend ⊢
  cases res with
  | ok a => exact Proc.onClient_ok hp hsend
  | error err => exact Proc.onClient_error hp hsend

section Transfers

variable {fid : Fid} {p : Bytes} {offset : Int64}

theorem length_buffer (p : Bytes) :
    (List.replicate (readCount msize p) (0 : UInt8)).length = readCount msize p :=
  List.length_replicate

theorem Ends.reads (h : Ends msize l v) (hmin : 23 ≤ msize) (hs : (msize : Int) ≤ smsize)
    (hop : (Op.read fid (readCount msize p) offset).perform F v =
      some (.count v'.data.length none, v')) (hlen : v'.data.length ≤ readCount msize p) :
    ∃ l', Client.read (Link.send (sFileSys F) smsize) fid p offset l =
        (.ok (v'.data.length, overwrite p v'.data,
          if v'.data.length = 0 then some .eof else none), l') ∧ Ends msize l' v' := by
  obtain ⟨w', hperform, hdistinct, rfl⟩ := h.performs hop
  have hread : (sFileSys F).read fid (List.replicate (readCount msize p) 0) offset l.state =
      (.ok ((w'.data.length : Int), ⟨overwrite (List.replicate (readCount msize p) 0) w'.data,
        overwrite_length ..⟩), w') := by
    simp only [sFileSys, World.method, length_buffer, hperform]
    rfl
  obtain ⟨l', hcall, hready, rfl⟩ := Client.read_ready h.ready hmin hs rfl hlen hread
  exact ⟨l', hcall, hready, hdistinct, rfl⟩

theorem Ends.read_fails (h : Ends msize l v) (hmin : 23 ≤ msize) (hs : (msize : Int) ≤ smsize)
    (hc : CarriesError F msize v (.read fid (readCount msize p) offset)) {n : Int} {err : Err}
    (hop : (Op.read fid (readCount msize p) offset).perform F v =
      some (.count n (some err), v')) :
    ∃ l', Client.read (Link.send (sFileSys F) smsize) fid p offset l =
        (.error (.err (.rerror err.ename)), l') ∧ Ends msize l' v' := by
  obtain ⟨w', hperform, hdistinct, rfl⟩ := h.performs hop
  have hread : (sFileSys F).read fid (List.replicate (readCount msize p) 0) offset l.state =
      (.error err, w') := by
    simp only [sFileSys, World.method, length_buffer, hperform]
    rfl
  obtain ⟨l', hcall, hready, rfl⟩ :=
    Client.read_fails h.ready hmin hs rfl (hc _ hop err rfl) hread
  exact ⟨l', hcall, hready, hdistinct, rfl⟩

theorem Ends.writes (smsize : Int) (h : Ends msize l v) (hmin : 23 ≤ msize)
    (hsize : 19 + p.length < 2 ^ 32) {n : Int} (hn : 0 ≤ n ∧ n < 2 ^ 32)
    (hop : (Op.write fid (p.take (msize - 23)) offset).perform F v = some (.count n none, v')) :
    ∃ l', Client.write (Link.send (sFileSys F) smsize) fid p offset l =
        (.ok (n.toNat, if n.toNat < p.length then some .shortWrite else none), l') ∧
      Ends msize l' v' := by
  obtain ⟨w', hperform, hdistinct, rfl⟩ := h.performs hop
  have hwrite : (sFileSys F).write fid (p.take (msize - 23)) offset l.state =
      (.ok ((n.toNat : Nat) : Int), w') := by
    simp only [sFileSys, World.method, hperform]
    rw [Int.toNat_of_nonneg hn.1]
    rfl
  obtain ⟨l', hcall, hready, rfl⟩ := Client.write_ready h.ready hmin hsize hwrite (by omega)
  exact ⟨l', hcall, hready, hdistinct, rfl⟩

theorem Ends.write_fails (smsize : Int) (h : Ends msize l v) (hmin : 23 ≤ msize)
    (hsize : 19 + p.length < 2 ^ 32)
    (hc : CarriesError F msize v (.write fid (p.take (msize - 23)) offset)) {n : Int} {err : Err}
    (hop : (Op.write fid (p.take (msize - 23)) offset).perform F v =
      some (.count n (some err), v')) :
    ∃ l', Client.write (Link.send (sFileSys F) smsize) fid p offset l =
        (.error (.err (.rerror err.ename)), l') ∧ Ends msize l' v' := by
  obtain ⟨w', hperform, hdistinct, rfl⟩ := h.performs hop
  have hwrite : (sFileSys F).write fid (p.take (msize - 23)) offset l.state = (.error err, w') := by
    simp only [sFileSys, World.method, hperform]
    rfl
  obtain ⟨l', hcall, hready, rfl⟩ :=
    Client.write_fails h.ready hmin hsize (hc _ hop err rfl) hwrite
  exact ⟨l', hcall, hready, hdistinct, rfl⟩

end Transfers

end Connection

/-! ## Programs -/

section Programs

variable {φ α : Type} {F : Session.FileSys φ} {msize : Nat} {smsize : Int}
  {fs : FsState (Link (World φ))} {m m' : FsState (View φ)}

/-- `CFileSys` over a connection, and what it stands for. -/
structure Mounted (msize : Nat) (fs : FsState (Link (World φ))) (m : FsState (View φ)) : Prop where
  ends : Ends msize fs.session m.session
  nextfid : fs.nextfid = m.nextfid

theorem attempt_eq {τ : Type} {x : Handling τ α} {t' : τ} {res : Except Err α} {fs : FsState τ}
    (h : x fs.session = (proxyResult res, t')) :
    (onSession x).attempt fs = (.ok (remote res), { fs with session := t' }) := by
  simp only [Handling.attempt, onSession, h]
  cases res <;> rfl

theorem via_served (h : Mounted msize fs m) (p : Proc α) (hshort : p.Short)
    (hc : Carries F msize m.session p) {res : Except Err α} (hres : via F p m = some (res, m')) :
    ∃ fs', (onSession (p.onClient (Link.send (sFileSys F) smsize))).attempt fs = (.ok res, fs') ∧
      Mounted msize fs' m' := by
  obtain ⟨⟨r, v'⟩, hop, heq⟩ := Option.map_eq_some_iff.mp hres
  cases heq
  obtain ⟨l', hcall, hends⟩ := h.ends.calls hshort hc hop
  exact ⟨_, attempt_eq hcall, hends, h.nextfid⟩

/-- The new fid. -/
theorem Mounted.newFid (h : Mounted msize fs m) :
    newFid fs = (.ok (m.nextfid + 1), { fs with nextfid := m.nextfid + 1 }) ∧
      Mounted msize { fs with nextfid := m.nextfid + 1 } { m with nextfid := m.nextfid + 1 } := by
  refine ⟨?_, h.ends, rfl⟩
  rw [← h.nextfid]
  rfl

/-- What comes after it. -/
theorem fresh_served (h : Mounted msize fs m) {x : Fid → Handling (Link (World φ)) α}
    {y : Fid → StateT (FsState (View φ)) Option (Except Err α)} {r : Fid × Except Err α}
    (hr : viaNew y m = some (r, m'))
    (hxy : ∀ {fs res}, Mounted msize fs { m with nextfid := m.nextfid + 1 } →
      y (m.nextfid + 1) { m with nextfid := m.nextfid + 1 } = some (res, m') →
      ∃ fs', (onSession (x (m.nextfid + 1))).attempt fs = (.ok res, fs') ∧ Mounted msize fs' m') :
    ∃ fs', onNewFid x fs = (.ok r, fs') ∧ Mounted msize fs' m' := by
  obtain ⟨fid, m₁, hfid, h₁⟩ := bind_eq_some hr
  cases hfid
  obtain ⟨res, m₂, hres, h₂⟩ := bind_eq_some h₁
  cases h₂
  obtain ⟨hnew, hm₁⟩ := h.newFid
  obtain ⟨fs', hattempt, hm'⟩ := hxy hm₁ hres
  refine ⟨fs', (Handling.bind_ok hnew _).trans ?_, hm'⟩
  rw [Handling.bind_ok hattempt]
  rfl

section Transfers

variable {fid : Fid} {p : Bytes} {offset : Int64}

theorem read_served (hmin : 23 ≤ msize) (hs : (msize : Int) ≤ smsize) (h : Mounted msize fs m)
    (hc : CarriesError F msize m.session (.read fid (readCount msize p) offset))
    {r : Except Err (Nat × Bytes × Option Err)}
    (hr : readFile F msize fid p offset m = some (r, m')) :
    ∃ fs', (onSession (Client.read (Link.send (sFileSys F) smsize) fid p offset)).attempt fs =
        (.ok r, fs') ∧ Mounted msize fs' m' := by
  unfold readFile at hr
  split at hr
  · rename_i n err session hop
    cases hr
    obtain ⟨l', hcall, hends⟩ := h.ends.read_fails hmin hs hc hop
    refine ⟨{ fs with session := l' }, ?_, hends, h.nextfid⟩
    simp only [Handling.attempt, onSession, hcall]
  · rename_i n session hop
    dsimp only at hr
    split at hr
    · rename_i hn
      obtain ⟨rfl, hlen⟩ := hn
      cases hr
      obtain ⟨l', hcall, hends⟩ := h.ends.reads hmin hs hop hlen
      refine ⟨{ fs with session := l' }, ?_, hends, h.nextfid⟩
      simp only [Handling.attempt, onSession, hcall]
    · cases hr
  · cases hr

theorem write_served (hmin : 23 ≤ msize) (h : Mounted msize fs m) (hsize : 19 + p.length < 2 ^ 32)
    (hc : CarriesError F msize m.session (.write fid (p.take (msize - 23)) offset))
    {r : Except Err (Nat × Option Err)} (hr : writeFile F msize fid p offset m = some (r, m')) :
    ∃ fs', (onSession (Client.write (Link.send (sFileSys F) smsize) fid p offset)).attempt fs =
        (.ok r, fs') ∧ Mounted msize fs' m' := by
  unfold writeFile at hr
  split at hr
  · rename_i n err session hop
    cases hr
    obtain ⟨l', hcall, hends⟩ := h.ends.write_fails smsize hmin hsize hc hop
    refine ⟨{ fs with session := l' }, ?_, hends, h.nextfid⟩
    simp only [Handling.attempt, onSession, hcall]
  · rename_i n session hop
    split at hr
    · rename_i hn
      cases hr
      obtain ⟨l', hcall, hends⟩ := h.ends.writes smsize hmin hsize hn hop
      refine ⟨{ fs with session := l' }, ?_, hends, h.nextfid⟩
      simp only [Handling.attempt, onSession, hcall]
    · cases hr
  · cases hr

end Transfers

/-- `Walk`, which the client refuses by more than 16 names. -/
theorem walk_served (h : Mounted msize fs m) (fid newfid : Fid) {names : List Bytes}
    (hc : names.length ≤ 16 → Carries F msize m.session (.walk fid newfid names))
    {res : Except Err (List Qid)}
    (hres : (if names.length > 16 then return .error .walkLimit
      else via F (.walk fid newfid names)) m = some (res, m')) :
    ∃ fs', (onSession (Client.walk (Link.send (sFileSys F) smsize) fid newfid names)).attempt fs =
        (.ok res, fs') ∧ Mounted msize fs' m' := by
  split at hres
  · rename_i hlen
    cases hres
    refine ⟨fs, ?_, h⟩
    rw [Client.walk, if_pos hlen]
    rfl
  · rename_i hlen
    have hle : names.length ≤ 16 := Nat.le_of_not_gt hlen
    exact via_served h (.walk fid newfid names) hle (hc hle) hres

/-- A call over the connection. -/
theorem served (hmin : 23 ≤ msize) (hs : (msize : Int) ≤ smsize) (h : Mounted msize fs m) {c : Ask}
    {r : c.Res} {t : Nat} {e : Unit} (hc : serve F msize m t c e = some (r, m')) :
    ∃ fs', c.perform (Link.send (sFileSys F) smsize) fs = (.ok r, fs') ∧ Mounted msize fs' m' := by
  obtain ⟨hfits, hheld⟩ := Option.ite_none_right_eq_some.mp hc
  cases c with
  | newFid =>
      cases hheld
      exact ⟨_, h.newFid⟩
  | auth uname aname =>
      refine fresh_served h hheld fun h' => ?_
      exact via_served h' (.auth (m.nextfid + 1) uname aname) (by trivial) hfits
  | attach afid uname aname =>
      refine fresh_served h hheld fun h' => ?_
      exact via_served h' (.attach (m.nextfid + 1) afid uname aname) (by trivial) hfits
  | walk fid names =>
      exact fresh_served h hheld fun h' => walk_served h' fid (m.nextfid + 1) hfits
  | «open» fid mode => exact via_served h (.open fid mode) trivial hfits hheld
  | create fid name perm mode =>
      exact via_served h (.create fid name perm mode) trivial hfits hheld
  | read fid p offset => exact read_served hmin hs h hfits hheld
  | write fid p offset => exact write_served hmin h hfits.1 hfits.2 hheld
  | stat fid => exact via_served h (.stat fid) trivial hfits hheld
  | wstat fid dir => exact via_served h (.wstat fid dir) trivial hfits hheld
  | clunk fid => exact via_served h (.clunk fid) trivial hfits hheld
  | remove fid => exact via_served h (.remove fid) trivial hfits hheld

/-- A connection that has not been used yet, to a session that has not either. -/
structure Fresh (msize : Nat) (fs : φ) (l : Link (World φ)) : Prop where
  ready : l.Ready msize
  state : l.state = .new fs

/-- **What `CFileSys` is for.**  A program over a connection to `F` returns what
it returns without, and leaves `F` and the fids as it leaves them then. -/
theorem mounted (F : Session.FileSys φ) (fs : φ) {msize : Nat} (hmin : 23 ≤ msize) {smsize : Int}
    (hs : (msize : Int) ≤ smsize) (l : Link (World φ)) (hl : Fresh msize fs l) (p : Plan α) {a : α}
    {m : FsState (View φ)} {n : Nat}
    (h : run (serve F msize) 0 (fun _ => ()) p ⟨⟨fun _ => none, .new fs, 0, []⟩, 0⟩ 0 =
      .returned a m n) :
    ∃ fs' n', run (Ask.exec (Link.send (sFileSys F) smsize)) 0 (fun _ => ()) p ⟨l, 0⟩ 0 =
        .returned a fs' n' ∧
      fs'.session.Ready msize ∧ fs'.session.state.view = m.session ∧ fs'.nextfid = m.nextfid := by
  have hinit : Mounted msize ⟨l, 0⟩ ⟨⟨fun _ => none, .new fs, 0, []⟩, 0⟩ := by
    refine ⟨⟨hl.ready, ?_, ?_⟩, rfl⟩
    · rw [hl.state]
      rintro _ _ _ ⟨⟩
    · rw [hl.state]
      rfl
  obtain ⟨fs', hreturns, hmounted⟩ : ∃ fs', Returns (fun s c r s' => ∀ e : Unit,
      Ask.exec (Link.send (sFileSys F) smsize) s 0 c e = some (r, s')) p ⟨l, 0⟩ a fs' ∧
        Mounted msize fs' m := by
    refine (Returns.of_run h).simulate (fun m fs => Mounted msize fs m) ?_ hinit
    intro m m' fs c r hm hc
    obtain ⟨e, hc⟩ := hc
    obtain ⟨fs', hperform, hm'⟩ := served hmin hs hm hc
    exact ⟨fs', fun _ => exec_ok hperform, hm'⟩
  obtain ⟨n, hrun⟩ : ∃ n, run (Ask.exec (Link.send (sFileSys F) smsize)) 0 (fun _ => ()) p
      ⟨l, 0⟩ 0 = .returned a fs' n := hreturns.run 0
  exact ⟨fs', n, hrun, hmounted.ends.ready, hmounted.ends.view, hmounted.nextfid⟩

end Programs

/-- A file system of directories, last changed at the start of 1970. -/
def agreeing : Session.FileSys Unit where
  answer _ c s := some (match c with
    | .stat _ => ({ Dir.zero with accessTime := ⟨0, 0⟩, modTime := ⟨0, 0⟩ }, none)
    | c => agreeable c, [], s)
  next _ s := (.ok [], s)

/-- Look at `a`, make `b` beside it, and take it away. -/
def visit : Plan (Option Err) := do
  let (root, _) ← attach [] [] .null
  let (_, ent, _) ← root.walk [lit "a"]
  let (dir, _) ← ent.stat
  let (file, _) ← ent.open 8192 oread
  let _ ← file.write [0] 0
  let _ ← ent.clunk
  let (made, _, _) ← root.create 8192 (lit "b") 0 ordwr
  let _ ← made.wstat dir
  made.remove

theorem mounted_visit :
    ∃ fs' n, run (Ask.exec (Link.send (sFileSys agreeing) 65536)) 0 (fun _ => ()) visit
        ⟨⟨newChannel 8192, newChannel 8192, [], [], 0, .new ()⟩, 0⟩ 0 = .returned none fs' n ∧
      fs'.nextfid = 2 := by
  obtain ⟨m, n, hrun, hfid⟩ : ∃ m n, run (serve agreeing 8192) 0 (fun _ => ()) visit
      ⟨⟨fun _ => none, .new (), 0, []⟩, 0⟩ 0 = .returned none m n ∧ m.nextfid = 2 :=
    ⟨_, _, rfl, rfl⟩
  obtain ⟨fs', n', hrun', -, -, hnext⟩ := mounted agreeing () (by decide)
    (show ((8192 : Nat) : Int) ≤ 65536 by decide)
    ⟨newChannel 8192, newChannel 8192, [], [], 0, .new ()⟩ ⟨⟨rfl, rfl, by decide, rfl, rfl⟩, rfl⟩
    visit hrun
  exact ⟨fs', n', hrun', hnext.trans hfid⟩

end P9p.CFileSys.Mount
