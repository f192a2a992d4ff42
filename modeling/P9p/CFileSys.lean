/-
# `P9p.CFileSys` — a file system over a client

`cfilesys.go` turns a `Session` into a `FileSys`: a `cEnt` is a fid that the
file system has chosen itself.  `Walk` normalises its names, asks the session
to walk to a new fid, and counts the qids that come back.

**One would have** that a walk gives a `Dirent` exactly if the server has bound
the new fid, and that it does not matter whether the names were normalised
before.

**It is not so.**  The server compares the number of qids with the names it was
sent, the client with those it was given.  If normalising has dropped an
element the numbers differ, and a walk that has succeeded is reported as
incomplete, with the fid left bound (`walk_leaks`).

**When it is** (`walk_agrees_iff`): for any names and any server, if and only if

    the names are normalised already, or
    the server returns neither as many qids as it was sent names, nor as many as
    the client was given names: it refuses the walk, or stops short.
-/
import P9p.Client
import P9p.Path.Resolve

namespace P9p

variable {r : Except Err (List Qid)}

/-- A call whose error the caller looks at. -/
def Handling.attempt {σ α : Type} (x : Handling σ α) : Handling σ (Except Err α) := fun s =>
  match x s with
  | (.ok a, s') => (.ok (.ok a), s')
  | (.error (.err err), s') => (.ok (.error err), s')
  | (.error .panic, s') => (.error .panic, s')

namespace CFileSys

/-! ## Entries -/

/-- `fsState`, with the state of its session. -/
structure FsState (τ : Type) where
  session : τ
  nextfid : Fid

/-- `cEnt`, without the pointer to its file system. -/
structure CEnt where
  fid : Fid
  qid : Qid
  deriving DecidableEq

def noEnt : CEnt := ⟨noFid, ⟨0, 0, 0⟩⟩

section Model

variable {τ : Type}

/-- A call of a method of the session. -/
def onSession {α : Type} (x : Handling τ α) : Handling (FsState τ) α := fun fs =>
  let (r, session) := x fs.session
  (r, { fs with session })

def newFid : Handling (FsState τ) Fid := do
  modify fun fs => { fs with nextfid := fs.nextfid + 1 }
  return (← get).nextfid

/-- `strings.Join`. -/
def joinNames (names : List Bytes) : Bytes := (lit "/").intercalate names

/-- What `Walk` returns. -/
structure Walked where
  qids : List Qid
  ent : CEnt
  err : Option Err
  deriving DecidableEq

def CEnt.walk (send : RoundTripper τ) (ent : CEnt) (names : List Bytes) :
    Handling (FsState τ) Walked := do
  let (steps, bsp) := normalizePath names
  if bsp < 0 then
    return ⟨[], ent, some (.rerror (lit "invalid path: " ++ joinNames names))⟩
  let next ← newFid
  match ← (onSession (Client.walk send ent.fid next steps)).attempt with
  | .error err => return ⟨[], noEnt, some err⟩
  | .ok qids =>
      if qids.length ≠ names.length then
        return ⟨qids, noEnt, some (.other (lit "Incomplete walk result"))⟩
      return ⟨qids, ⟨next, qids.getLastD ent.qid⟩, none⟩

/-! ## The server -/

/-- A walk to an unbound fid is answered as `SFileSys` answers it: the fid is
bound exactly if there are as many qids as names. -/
def AnswersWalk (send : RoundTripper τ) (bound : τ → Fid → Prop) (t : τ) (fid newfid : Fid)
    (names : List Bytes) : Prop :=
  (∃ qids t', send (.twalk fid newfid names) t = (.ok (.value (.rwalk qids)), t') ∧
    (bound t' newfid ↔ qids.length = names.length)) ∨
  ∃ err t', send (.twalk fid newfid names) t = (.error (.err err), t') ∧ ¬ bound t' newfid

/-- The walk is answered with `k` qids. -/
def Finds (send : RoundTripper τ) (t : τ) (fid newfid : Fid) (names : List Bytes) (k : Nat) :
    Prop :=
  ∃ qids t', send (.twalk fid newfid names) t = (.ok (.value (.rwalk qids)), t') ∧
    qids.length = k

/-- A connection to a session that answers so does the same. -/
theorem answersWalk_send {σ : Type} {msize : Nat} {l : Link σ} (h : l.Ready msize)
    {session : SessionOps σ} (smsize : Int) {bound : σ → Fid → Prop} {fid newfid : Fid}
    {names : List Bytes} {s' : σ} (hwalk : session.walk fid newfid names l.state = (r, s'))
    (hbound : bound s' newfid ↔ ∃ qids, r = .ok qids ∧ qids.length = names.length)
    (hreq : (Message.twalk fid newfid names).Travels msize)
    (hresp : (reply (r.map .rwalk)).Travels msize) :
    AnswersWalk (Link.send session smsize) (fun l => bound l.state) l fid newfid names := by
  obtain ⟨l', hsend, -, rfl⟩ :=
    Link.send_proc h smsize (show Proc.onSession session (.walk fid newfid names) _ = _ from hwalk)
      hreq hresp
  cases r with
  | ok qids =>
      refine Or.inl ⟨qids, l', hsend, hbound.trans ?_⟩
      exact ⟨fun ⟨_, h, hlen⟩ => Except.ok.inj h ▸ hlen, fun hlen => ⟨qids, rfl, hlen⟩⟩
  | error err =>
      refine Or.inr ⟨_, l', hsend, fun h => ?_⟩
      obtain ⟨_, h, -⟩ := hbound.mp h
      cases h

end Model

/-! ## Client and server -/

section Agreement

variable {τ : Type} {send : RoundTripper τ} {bound : τ → Fid → Prop} {ent : CEnt}
  {fs : FsState τ} {names steps : List Bytes} {bsp : Int}

/-- What `Walk` makes of the answer of the session. -/
def CEnt.walked (ent : CEnt) (names : List Bytes) (next : Fid) : Except Err (List Qid) → Walked
  | .error err => ⟨[], noEnt, some err⟩
  | .ok qids =>
      if qids.length ≠ names.length then
        ⟨qids, noEnt, some (.other (lit "Incomplete walk result"))⟩
      else ⟨qids, ⟨next, qids.getLastD ent.qid⟩, none⟩

theorem CEnt.walk_eq (h : normalizePath names = (steps, bsp)) (hbsp : 0 ≤ bsp) {t' : τ}
    (hwalk : Client.walk send ent.fid (fs.nextfid + 1) steps fs.session = (r.mapError .err, t')) :
    ent.walk send names fs =
      (.ok (ent.walked names (fs.nextfid + 1) r), ⟨t', fs.nextfid + 1⟩) := by
  have hattempt : (onSession (Client.walk send ent.fid (fs.nextfid + 1) steps)).attempt
      { fs with nextfid := fs.nextfid + 1 } = (.ok r, ⟨t', fs.nextfid + 1⟩) := by
    simp only [Handling.attempt, onSession, hwalk]
    cases r <;> rfl
  rw [CEnt.walk, h]
  dsimp only
  rw [if_neg (Int.not_lt.mpr hbsp)]
  refine (Handling.bind_ok (show newFid fs = (.ok (fs.nextfid + 1), _) from rfl) _).trans ?_
  rw [Handling.bind_ok hattempt]
  cases r with
  | error err => rfl
  | ok qids =>
      dsimp only [walked]
      split <;> rfl

/-- Client and server agree about a walk: it gives a `Dirent` if and only if the
new fid is bound, and it is the walk of the normalised names. -/
def WalkAgrees (send : RoundTripper τ) (bound : τ → Fid → Prop) (ent : CEnt) (fs : FsState τ)
    (names : List Bytes) : Prop :=
  ∃ r fs', ent.walk send names fs = (.ok r, fs') ∧
    fs'.nextfid = fs.nextfid + 1 ∧
    (r.err = none ↔ bound fs'.session fs'.nextfid) ∧
    (r.err = none → r.ent.fid = fs'.nextfid) ∧
    ent.walk send (normalizePath names).1 fs = (.ok r, fs')

/-- The call on the session succeeds exactly if there are qids, and they are as
many as the names if and only if the fid is bound. -/
theorem AnswersWalk.client {t : τ} {fid newfid : Fid}
    (h : AnswersWalk send bound t fid newfid steps) (hshort : steps.length ≤ 16) :
    ∃ r t', Client.walk send fid newfid steps t = (Except.mapError .err r, t') ∧
      (bound t' newfid ↔ ∃ qids, r = .ok qids ∧ qids.length = steps.length) ∧
      ∀ k, Finds send t fid newfid steps k ↔ ∃ qids, r = .ok qids ∧ qids.length = k := by
  have hproc : Proc.Short (.walk fid newfid steps) := hshort
  rcases h with ⟨qids, t', hsend, hbound⟩ | ⟨err, t', hsend, hbound⟩
  · have hqids : ∀ k, qids.length = k ↔
        ∃ qids', (.ok qids : Except Err _) = .ok qids' ∧ qids'.length = k := by simp
    refine ⟨.ok qids, t', Proc.onClient_ok hproc hsend, hbound.trans (hqids _), fun k => ?_⟩
    rw [← hqids]
    constructor
    · rintro ⟨qids', u, heq, hlen⟩
      cases hsend.symm.trans heq
      exact hlen
    · exact fun hlen => ⟨qids, t', hsend, hlen⟩
  · have hnone : ∀ k, ¬ ∃ qids : List Qid, Except.error err = .ok qids ∧ qids.length = k := by simp
    refine ⟨.error err, t', Proc.onClient_error hproc hsend, iff_of_false hbound (hnone _),
      fun k => iff_of_false ?_ (hnone k)⟩
    rintro ⟨qids, u, heq, -⟩
    cases hsend.symm.trans heq

theorem CEnt.walked_err {next : Fid} :
    (ent.walked names next r).err = none ↔ ∃ qids, r = .ok qids ∧ qids.length = names.length := by
  cases r with
  | error err => exact ⟨nofun, fun ⟨_, h, _⟩ => nomatch h⟩
  | ok qids =>
      rw [walked]
      split
      · rename_i hne
        exact ⟨nofun, fun ⟨_, h, hlen⟩ => absurd (Except.ok.inj h ▸ hlen) hne⟩
      · rename_i heq
        exact ⟨fun _ => ⟨qids, rfl, not_not.mp heq⟩, fun _ => rfl⟩

theorem CEnt.walked_fid {next : Fid} (h : (ent.walked names next r).err = none) :
    (ent.walked names next r).ent.fid = next := by
  obtain ⟨qids, rfl, hlen⟩ := walked_err.mp h
  rw [walked, if_neg (not_not.mpr hlen)]

/-- Of the names only their number counts. -/
theorem CEnt.walked_congr {next : Fid}
    (h : ∀ qids, r = .ok qids → (qids.length = names.length ↔ qids.length = steps.length)) :
    ent.walked names next r = ent.walked steps next r := by
  cases r with
  | error err => rfl
  | ok qids => simp only [walked, ne_eq, h qids rfl]

/-- Both ends see the same if their comparisons of the numbers agree. -/
theorem walkAgrees_iff (h : normalizePath names = (steps, bsp)) (hbsp : 0 ≤ bsp) {t' : τ}
    (hwalk : Client.walk send ent.fid (fs.nextfid + 1) steps fs.session = (r.mapError .err, t'))
    (hbound : bound t' (fs.nextfid + 1) ↔ ∃ qids, r = .ok qids ∧ qids.length = steps.length) :
    WalkAgrees send bound ent fs names ↔
      ∀ qids, r = .ok qids → (qids.length = names.length ↔ qids.length = steps.length) := by
  have hnames := CEnt.walk_eq h hbsp hwalk
  have hsteps := CEnt.walk_eq (normalizePath_idem h hbsp) hbsp hwalk
  rw [WalkAgrees, h]
  constructor
  · rintro ⟨w, fs', heq, -, herr, -⟩ qids rfl
    obtain ⟨⟨⟩, ⟨⟩⟩ := Prod.ext_iff.mp (hnames.symm.trans heq)
    simpa using CEnt.walked_err.symm.trans (herr.trans hbound)
  · intro hsame
    rw [CEnt.walked_congr hsame] at hnames
    exact ⟨_, _, hnames, rfl, CEnt.walked_err.trans hbound.symm, CEnt.walked_fid, hsteps⟩

/-- Client and server agree about a walk if and only if its names were normalised
before it, or the server finds neither all of the normalised names nor as many
qids as there were names before. -/
theorem walk_agrees_iff (h : normalizePath names = (steps, bsp)) (hbsp : 0 ≤ bsp)
    (hshort : steps.length ≤ 16)
    (hserver : AnswersWalk send bound fs.session ent.fid (fs.nextfid + 1) steps) :
    WalkAgrees send bound ent fs names ↔ Normal names ∨
      ∀ k, Finds send fs.session ent.fid (fs.nextfid + 1) steps k →
        k ≠ steps.length ∧ k ≠ names.length := by
  obtain ⟨r, t', hwalk, hbound, hfinds⟩ := hserver.client hshort
  rw [walkAgrees_iff h hbsp hwalk hbound, ← normalizePath_length_iff h hbsp]
  simp only [hfinds]
  constructor
  · intro hsame
    by_cases hlen : steps.length = names.length
    · exact Or.inl hlen
    · right
      rintro k ⟨qids, hr, rfl⟩
      have hqids := hsame qids hr
      omega
  · rintro (hlen | hneither) qids hr
    · rw [hlen]
    · obtain ⟨hsteps, hnames⟩ := hneither _ ⟨qids, hr, rfl⟩
      exact iff_of_false hnames hsteps

/-- They agree about `"./a"` if the server refuses the walk. -/
theorem walk_agrees_refused :
    WalkAgrees (fun _ _ => (.error (.err .perm), ())) (fun _ _ => False) ⟨0, ⟨qtdir, 0, 0⟩⟩ ⟨(), 0⟩
      [lit ".", lit "a"] := by
  refine (walk_agrees_iff (show normalizePath _ = ([lit "a"], 0) from rfl) (by decide) (by decide)
    (Or.inr ⟨.perm, (), rfl, not_false⟩)).mpr (Or.inr ?_)
  rintro k ⟨qids, t', hsend, -⟩
  cases hsend

end Agreement

/-- A session that finds every name. -/
def findsAll : SessionOps (List Fid) where
  auth _ _ _ s := (.error .perm, s)
  attach _ _ _ _ s := (.error .perm, s)
  clunk _ s := (.error .perm, s)
  remove _ s := (.error .perm, s)
  walk _ newfid names s := (.ok (names.map fun _ => ⟨qtdir, 0, 0⟩), newfid :: s)
  read _ _ _ s := (.error .perm, s)
  write _ _ _ s := (.error .perm, s)
  «open» _ _ s := (.error .perm, s)
  create _ _ _ _ s := (.error .perm, s)
  stat _ s := (.error .perm, s)
  wstat _ _ s := (.error .perm, s)

/-- A walk to `"./a"`, over a connection to a server that finds everything.  Fid 1
is bound there, but the walk fails. -/
theorem walk_leaks :
    ∃ fs', CEnt.walk (Link.send findsAll 65536) ⟨0, ⟨qtdir, 0, 0⟩⟩ [lit ".", lit "a"]
        ⟨⟨newChannel 64, newChannel 64, [], [], 0, [0]⟩, 0⟩ =
      (.ok ⟨[⟨qtdir, 0, 0⟩], noEnt, some (.other (lit "Incomplete walk result"))⟩, fs') ∧
      fs'.session.state = [1, 0] := by
  exact ⟨_, rfl, rfl⟩

end CFileSys

end P9p
