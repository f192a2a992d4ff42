/-
# Open modes

A client may read or write a file only as the mode says in which it was opened.
The session keeps `File` and `Mode` in the `SFid`, where four operations leave
their mark: `Open` and `Create` set both, `Walk` in place carries them along to
another `Dirent`, and `Create` replaces what is there.

**Sequences of requests.**  Requests are taken one after the other, whatever
the file system answers.  One that comes to wait for a mutex waits forever,
since nobody else runs; it keeps what it has locked, and the requests after it
are served all the same (`attempt`).  Where none waits, this is `serve`
(`exec_serve_iff`).

**Proved here** (`modes_enforced`), of every sequence:

    File.Write is called through a fid only if the `Open` or `Create` that
      opened this file, on this fid, was for writing; `File.Read`, only if it
      was not for writing only
    two `Open`s of a fid succeed, or an `Open` after a `Create`, only if the
      fid was bound anew in between

**How.**  What a request does to the table is a move of the ledger
(`Op.effect`), or, if it waits, it has at most taken fids out (`Fewer`).  What
it calls is followed command by command (`Fine`).
-/
import P9p.Session.Routine
import P9p.Session.Serial

namespace P9p.Session

open Conc Books

variable {s s' : Store} {t n : Nat} {env : Nat → Env}
variable {a : Request × (Nat → Env)} {c : Cmd} {allowed : Flag → Prop} {mode : Flag} {s₁ : Store}
  {f : File}

/-! ## Sequences of requests -/

/-- The store, and the requests so far, each with its result.  One that waits
has none. -/
structure Past where
  store : Store
  history : List (Request × Option Ret)

def Past.blank : Past := ⟨init, []⟩

/-- The next request, as thread number `history.length`.  To unlock a mutex
that is not locked is fatal, as is a panic. -/
def attempt (u : Past) (a : Request × (Nat → Env)) : Option Past :=
  match run exec u.history.length a.2 a.1.prog (a.1.start u.store u.history.length) 0 with
  | .returned r store _ => some ⟨store, u.history ++ [(a.1, some r)]⟩
  | .blocked (.lock _) store => some ⟨store, u.history ++ [(a.1, none)]⟩
  | .blocked _ _ | .crashed _ => none

def Past.served (u : Past) : Served := ⟨u.store, u.history.length⟩

/-- No request waits. -/
def Past.Finished (u : Past) : Prop := ∀ x ∈ u.history, x.2 ≠ none

variable {u u' : Past}

theorem attempt_cases (h : attempt u a = some u') :
    ∃ r, u'.history = u.history ++ [(a.1, r)] ∧ (r ≠ none ↔ serve u.served a = some u'.served) := by
  unfold attempt at h
  unfold serve Past.served
  split at h <;> rename_i hrun <;> cases h
  · exact ⟨_, rfl, by simp [hrun]⟩
  · exact ⟨_, rfl, by simp [hrun]⟩

theorem serve_attempts {v : Served} (h : serve u.served a = some v) :
    ∃ u', attempt u a = some u' ∧ u'.served = v := by
  unfold serve Past.served at h
  unfold attempt
  split at h <;> rename_i hrun <;> cases h
  rw [hrun]
  exact ⟨_, rfl, by simp [Past.served]⟩

theorem attempt_finished_iff (h : attempt u a = some u') :
    u'.Finished ↔ u.Finished ∧ serve u.served a = some u'.served := by
  obtain ⟨r, hhist, hr⟩ := attempt_cases h
  rw [Past.Finished, hhist, List.forall_mem_append, List.forall_mem_singleton, hr, Past.Finished]

/-- The sessions that `serve` runs to their end are those in which no request
waits. -/
theorem exec_serve_iff (reqs : List (Request × (Nat → Env))) {v : Served} (hu : u.Finished) :
    Conc.exec serve u.served reqs = some v ↔
      ∃ u', Conc.exec attempt u reqs = some u' ∧ u'.served = v ∧ u'.Finished := by
  induction reqs generalizing u with
  | nil =>
      constructor
      · rintro ⟨⟩
        exact ⟨u, rfl, rfl, hu⟩
      · rintro ⟨u', ⟨⟩, rfl, -⟩
        rfl
  | cons a reqs ih =>
      constructor
      · intro hrun
        obtain ⟨v₁, hserve, hrun⟩ := exec_cons_eq_some hrun
        obtain ⟨u₁, hu₁, rfl⟩ := serve_attempts hserve
        rw [Conc.exec, hu₁]
        exact (ih ((attempt_finished_iff hu₁).mpr ⟨hu, hserve⟩)).mp hrun
      · rintro ⟨u', hrun, hv, hu'⟩
        obtain ⟨u₁, hu₁, hrun⟩ := exec_cons_eq_some hrun
        have hu₁' : u₁.Finished := by
          by_contra hnot
          refine reachable_invariant (I := fun w => ¬ w.Finished) ?_ hnot ⟨reqs, hrun⟩ hu'
          intro w a w' hw hstep hw'
          exact hw ((attempt_finished_iff hstep).mp hw').1
        rw [Conc.exec, ((attempt_finished_iff hu₁).mp hu₁').2]
        exact (ih hu₁').mpr ⟨u', hrun, hv, hu'⟩

/-! ## The property -/

/-- An `Open` or `Create` of `fid` that has succeeded. -/
def Opens (fid : Fid) (mode : Flag) : Request × Option Ret → Prop
  | (.call op, some r) => op.opens = some (fid, mode) ∧ r.err = none
  | _ => False

/-- An `Open` of `fid` that has succeeded. -/
def OpensAgain (fid : Fid) : Request × Option Ret → Prop
  | (.call (.open fid' _), some r) => fid' = fid ∧ r.err = none
  | _ => False

/-- The request has bound `fid`, which was free, to a `Dirent`. -/
def Binds (fid : Fid) : Request × Option Ret → Prop
  | (.call (.attach fid' _ _ _), some r) => fid' = fid ∧ r.err = none
  | (.call (.walk fid' newfid names), some (.qids qs none)) =>
      newfid = fid ∧ fid' ≠ fid ∧ qs.length = names.length
  | _ => False

/-- `f` is the file that request number `t` has opened, through `fid` in
`mode`. -/
structure OpenedBy (u : Past) (f : File) (t : Nat) (fid : Fid) (mode : Flag) : Prop where
  request : ∃ a, u.history[t]? = some a ∧ Opens fid mode a
  gave : Gave u.store.log t f
  only : ∀ t', Gave u.store.log t' f → t' = t

/-- By its two low bits, the mode is not for writing only. -/
def Readable (mode : Flag) : Prop := mode &&& 3 ≠ owrite

def Writable (mode : Flag) : Prop := mode &&& 3 = owrite ∨ mode &&& 3 = ordwr

/-- An earlier request than `t` has opened `f` through `fid`, in a mode that is
allowed. -/
def OpenedEarlier (u : Past) (t : Nat) (fid : Fid) (f : File) (allowed : Flag → Prop) : Prop :=
  ∃ t₀ < t, ∃ mode, OpenedBy u f t₀ fid mode ∧ allowed mode

structure ModesEnforced (u : Past) : Prop where
  read : ∀ t f len offset, .enter t (.read f len offset) ∈ u.store.log →
    ∃ fid ret, u.history[t]? = some (.call (.read fid len offset), ret) ∧
      OpenedEarlier u t fid f Readable
  write : ∀ t f p offset, .enter t (.write f p offset) ∈ u.store.log →
    ∃ fid ret, u.history[t]? = some (.call (.write fid p offset), ret) ∧
      OpenedEarlier u t fid f Writable

/-- Between an `Open` or `Create` of a fid and an `Open` of it, both successful,
the fid was bound. -/
def OpensOnce (u : Past) : Prop :=
  ∀ (i j : Nat) a b fid mode, i < j → u.history[i]? = some a → Opens fid mode a →
    u.history[j]? = some b → OpensAgain fid b →
    ∃ k c, i < k ∧ k < j ∧ u.history[k]? = some c ∧ Binds fid c

/-! ## What a request may call -/

/-- `f` is the open file of `fid`, in a mode that is allowed. -/
def Entries.Reaches (E : Entries) (fid : Fid) (f : File) (allowed : Flag → Prop) : Prop :=
  ∃ e, E fid = some e ∧ e.ent ≠ none ∧ e.file = some f ∧ allowed e.mode

/-- A call of `File.Read` or `File.Write` is that of the request, on the open
file of its fid. -/
def Access (E : Entries) (req : Request) : Call → Prop
  | .read f len offset => ∃ fid, req = .call (.read fid len offset) ∧ E.Reaches fid f Readable
  | .write f p offset => ∃ fid, req = .call (.write fid p offset) ∧ E.Reaches fid f Writable
  | _ => True

/-- Some fids have been taken out, and nothing else. -/
def Fewer (E E' : Entries) : Prop := ∀ fid, E' fid = E fid ∨ E' fid = none

theorem Fewer.refl (E : Entries) : Fewer E E := fun _ => Or.inl rfl

/-- The commands that a request may issue which finds the entries `E`.  It waits
for a mutex only before it has changed anything. -/
def Allowed (E : Entries) (req : Request) (b : Books) : Cmd → Prop
  | .lock _ => Fewer E b.entries
  | .enter c => Access E req c
  | _ => True

abbrev Fine {α : Type} (t : Nat) (E : Entries) (req : Request) (Q : α → Books → Prop) (p : M α)
    (b : Books) : Prop :=
  Safe (Allowed E req) (Books.Step t) Q p b

/-- The command is allowed to all. -/
def Cmd.isQuiet : Cmd → Bool
  | .lock _ | .enter (.read _ _ _) | .enter (.write _ _ _) => false
  | _ => true

section Fine

variable {α : Type} {E : Entries} {req : Request} {b : Books} {p : M α}

theorem Allowed.of_isQuiet (h : c.isQuiet) : Allowed E req b c := by
  unfold Allowed
  split
  · cases h
  · unfold Access
    split <;> first | cases h | trivial
  · trivial

abbrev Quiet (p : M α) : Prop := p.Only fun c => c.isQuiet

theorem Routine.quiet (h : Routine p) : Quiet p := by
  refine h.mono fun c hc => ?_
  unfold Cmd.isQuiet
  split
  · cases hc
  · cases hc
  · cases hc
  · rfl

theorem Quiet.fine (h : Quiet p) (b : Books) : Fine t E req (fun _ _ => True) p b :=
  h.safe (fun _ _ => Allowed.of_isQuiet) b

/-- Of a quiet program we know what it does. -/
theorem Quiet.fine_ran (h : Quiet p) (b : Books) :
    Fine t E req (fun a b' => Ran t p b a b') p b :=
  h.safe_returns (fun _ _ => Allowed.of_isQuiet) b

theorem quiet_issue (h : c.isQuiet) : Quiet (issue c) := ⟨h, fun _ => trivial⟩

theorem fine_deferUnlock {ref : Nat} (h : Fine t E req (fun _ _ => True) p b) :
    Fine t E req (fun _ _ => True) (deferUnlock ref p) b := by
  refine h.bind fun a b' _ => ?_
  have hrest : Quiet (do issue (.unlock ref); return a) := (quiet_issue rfl).bind fun _ => trivial
  exact hrest.fine b'

theorem fine_getRef (hb : Fewer E b.entries) (fid : Fid) :
    Fine t E req (fun res b' => b' = b ∧ ∀ ref, res = .ok ref →
      b.refs fid = some ref ∧ (b.cell ref).ent ≠ none) (getRef fid) b := by
  unfold getRef
  split
  · exact ⟨rfl, nofun⟩
  · refine Safe.cmd trivial ?_
    rintro (_ | ref) _ ⟨href, rfl⟩
    · exact ⟨rfl, nofun⟩
    · refine Safe.cmd hb ?_
      rintro _ _ ⟨-, rfl⟩
      refine Safe.cmd trivial ?_
      rintro (_ | d) _ ⟨hd, rfl⟩
      · refine Safe.cmd trivial ?_
        rintro _ _ ⟨-, rfl⟩
        exact ⟨rfl, nofun⟩
      · refine ⟨rfl, ?_⟩
        rintro _ ⟨⟩
        refine ⟨href.symm, fun hnone => ?_⟩
        cases hd.trans hnone

theorem fine_withRef {fid : Fid} {fail : Err → Ret} {body : Nat → M Ret} (hb : Fewer E b.entries)
    (hbody : ∀ ref, b.refs fid = some ref → (b.cell ref).ent ≠ none →
      Fine t E req (fun _ _ => True) (body ref) b) :
    Fine t E req (fun _ _ => True) (withRef fid fail body) b := by
  refine (fine_getRef hb fid).bind ?_
  rintro (err | ref) _ ⟨rfl, hok⟩
  · trivial
  · obtain ⟨href, hent⟩ := hok ref rfl
    exact fine_deferUnlock (hbody ref href hent)

theorem fine_delRef (hb : Fewer E b.entries) (fid : Fid) (remove : Bool) :
    Fine t E req (fun _ _ => True) (delRef fid remove) b := by
  refine Safe.cmd trivial ?_
  rintro (_ | ref) _ ⟨-, rfl⟩
  · trivial
  · refine Safe.cmd ?_ fun _ b' _ => fine_deferUnlock (Quiet.fine ?_ b')
    · intro fid'
      show (b.erase fid).entries fid' = E fid' ∨ (b.erase fid).entries fid' = none
      rw [entries_erase, Function.update_apply]
      split
      · exact Or.inr rfl
      · exact hb fid'
    · refine (quiet_issue rfl).bind ?_
      rintro (_ | d)
      · trivial
      · exact (delRefAction_routine ref remove).quiet

/-- `Read` and `Write` reach the open file if the mode allows it. -/
theorem fine_transfer {fid : Fid} {refuses : Flag → Bool} {denied : Err}
    {io : File → M (Int × Option Err)} (hrefuses : ∀ mode, refuses mode = false → allowed mode)
    (hio : ∀ f, b.entries.Reaches fid f allowed →
      Fine t b.entries req (fun _ _ => True) (io f) b) :
    Fine t b.entries req (fun _ _ => True) (transfer fid refuses denied io) b := by
  refine fine_withRef (.refl _) fun ref href hent => Safe.cmd trivial ?_
  rintro (_ | f) b₁ ⟨-, hb₁⟩
  · trivial
  · obtain rfl : b = b₁ := hb₁.symm
    refine Safe.cmd trivial ?_
    rintro mode b₁ ⟨hmode, hb₁⟩
    obtain rfl : b = b₁ := hb₁.symm
    have hmode : mode = (b.cell ref).mode := hmode
    dsimp only
    split
    · trivial
    · rename_i hallowed
      refine ((file_routine ref).quiet.fine_ran b).bind fun f' b₁ hfile => ?_
      obtain ⟨hf', rfl⟩ := ran_file hfile
      have hentry : b.entries fid = some (b.cell ref) := congrArg (Option.map b.cell) href
      have hreach : b.entries.Reaches fid f' allowed :=
        ⟨b.cell ref, hentry, hent, hf', hmode ▸ hrefuses mode (Bool.eq_false_iff.mpr hallowed)⟩
      exact (hio f' hreach).bind fun _ _ _ => trivial

theorem fine_createLocked (hb : Fewer E b.entries) (ref : Nat) (parent : Fid) (name : Bytes)
    (perm : UInt32) (mode : Flag) :
    Fine t E req (fun _ _ => True) (createLocked ref parent name perm mode) b := by
  -- up to the rollback there are only calls
  refine ((ent_routine ref).quiet.fine_ran b).bind fun d b₁ hent => ?_
  obtain ⟨-, rfl⟩ := ran_ent hent
  refine ((isDir_routine d).quiet.fine_ran b).bind fun dir b₁ hdir => ?_
  have hc₁ := ran_isDir hdir
  cases dir with
  | false => trivial
  | true =>
      refine ((ent_routine ref).quiet.fine_ran b₁).bind fun d b₂ hent => ?_
      obtain ⟨-, rfl⟩ := ran_ent hent
      have hcreate : Routine (call (.create d name perm mode)) := call_routine rfl rfl
      refine (hcreate.quiet.fine_ran b₁).bind ?_
      rintro ⟨e, f, err⟩ b₂ hcall
      have hc₂ := hc₁.trans (ran_call_calls hcall)
      dsimp only
      cases created e f err with
      | error err => trivial
      | ok p =>
          refine ((isDir_routine p.1).quiet.fine_ran b₂).bind fun dir b₃ hdir => ?_
          have hc₃ := hc₂.trans (ran_isDir hdir)
          cases dir with
          | false => exact (replaceEnt_routine ref p.1 p.2 mode).quiet.fine b₃
          | true =>
              have hget : Routine (pure p.1 : M Nat) := trivial
              refine ((openEnt_routine hget mode).quiet.fine_ran b₃).bind fun res b₄ hopen => ?_
              have hc₄ := hc₃.trans (ran_openEnt (fun _ h => returns_ret h) hopen).1
              cases res with
              | error err =>
                  have hfewer : Fewer E b₄.entries := by
                    rw [hc₄.entries]
                    exact hb
                  exact (fine_delRef hfewer parent false).bind fun _ _ _ => trivial
              | ok f => exact (replaceEnt_routine ref p.1 f mode).quiet.fine b₄

theorem attachWith_quiet (fid : Fid) (uname aname : Bytes) (af : Option File) :
    Quiet (attachWith fid uname aname af) := by
  refine (newRef_routine fid).quiet.bind ?_
  rintro (err | ref)
  · trivial
  · have hcall : Quiet (call (.attach uname aname af)) := ⟨rfl, fun _ => ⟨rfl, fun _ => trivial⟩⟩
    refine Prog.Only.bind (hcall.bind ?_) fun _ => (quiet_issue rfl).bind fun _ => trivial
    rintro ⟨e, _ | err⟩
    · refine (quiet_issue rfl).bind fun _ => ?_
      cases e with
      | none => trivial
      | some d => exact (call_routine rfl rfl).quiet.bind fun _ => trivial
    · exact (quiet_issue rfl).bind fun _ => trivial

theorem attachFile_quiet (fid : Fid) (aref : Nat) (uname aname : Bytes) :
    Quiet (attachFile fid aref uname aname) := by
  refine Prog.Only.bind ((quiet_issue rfl).bind ?_) fun _ => (quiet_issue rfl).bind fun _ => trivial
  rintro (_ | ⟨id, _ | _ | _⟩)
  · trivial
  · trivial
  · have hcall : Quiet (call (.success ⟨id, .auth⟩)) := ⟨rfl, fun _ => ⟨rfl, fun _ => trivial⟩⟩
    refine hcall.bind ?_
    rintro (_ | _)
    · trivial
    · exact attachWith_quiet fid uname aname _
  · trivial

theorem fine_attach (hb : Fewer E b.entries) (fid afid : Fid) (uname aname : Bytes) :
    Fine t E req (fun _ _ => True) (attach fid afid uname aname) b := by
  unfold attach
  split
  · exact (attachWith_quiet fid uname aname none).fine b
  · refine (fine_getRef hb afid).bind ?_
    rintro (err | aref) b' -
    · trivial
    · refine Quiet.fine ((quiet_issue rfl).bind ?_) b'
      rintro (_ | f)
      · trivial
      · exact attachFile_quiet fid aref uname aname

theorem fine_walk (hb : Fewer E b.entries) (fid newfid : Fid) (names : List Bytes) :
    Fine t E req (fun _ _ => True) (walk fid newfid names) b := by
  unfold walk
  split
  · trivial
  · refine (fine_getRef hb fid).bind ?_
    rintro (err | ref) b' -
    · trivial
    · refine Quiet.fine ((walkRef_routine fid newfid).quiet.bind ?_) b'
      rintro (err | newref)
      · exact (walkCleanup_routine newfid ref none).quiet.bind fun _ => trivial
      · exact (walkLocked_routine ref newref names).quiet.bind fun p =>
          (walkCleanup_routine newfid p.2.1 p.2.2).quiet.bind fun _ => trivial

theorem readable_of_not_refused (h : decide (mode &&& oexec = owrite) = false) :
    Readable mode := of_decide_eq_false h

theorem writable_of_not_refused
    (h : decide (mode &&& oexec ≠ owrite ∧ mode &&& oexec ≠ ordwr) = false) : Writable mode := by
  have hor := not_and_or.mp (of_decide_eq_false h)
  exact hor.imp not_not.mp not_not.mp

/-- Every request calls files as it may, and waits only while it may. -/
theorem Request.fine (req : Request) (b : Books) :
    Fine t b.entries req (fun _ _ => True) req.prog b := by
  have hb := Fewer.refl b.entries
  cases req with
  | stop err fids => exact (stop_routine err fids).quiet.fine b
  | call op =>
      cases op with
      | auth afid uname aname => exact (auth_routine afid uname aname).quiet.fine b
      | attach fid afid uname aname => exact fine_attach hb fid afid uname aname
      | clunk fid => exact (fine_delRef hb fid false).bind fun _ _ _ => trivial
      | remove fid => exact (fine_delRef hb fid true).bind fun _ _ _ => trivial
      | walk fid newfid names => exact fine_walk hb fid newfid names
      | read fid len offset =>
          refine fine_transfer (fun _ => readable_of_not_refused) fun f hreach => ?_
          exact Safe.cmd ⟨fid, rfl, hreach⟩ fun _ _ _ => Safe.issue trivial fun _ _ _ => trivial
      | write fid p offset =>
          refine fine_transfer (fun _ => writable_of_not_refused) fun f hreach => ?_
          exact Safe.cmd ⟨fid, rfl, hreach⟩ fun _ _ _ => Safe.issue trivial fun _ _ _ => trivial
      | «open» fid mode => exact fine_withRef hb fun ref _ _ => (open_routine ref mode).quiet.fine b
      | create parent name perm mode =>
          show Fine t b.entries _ _ (create parent name perm mode) b
          unfold create
          split
          · trivial
          · exact fine_withRef hb fun ref _ _ => fine_createLocked hb ref parent name perm mode
      | stat fid =>
          refine fine_withRef hb fun ref _ _ => Quiet.fine ?_ b
          exact (ent_routine ref).quiet.bind fun _ => (call_routine rfl rfl).quiet.bind fun _ =>
            trivial
      | wstat fid dir =>
          refine fine_withRef hb fun ref _ _ => Quiet.fine ?_ b
          exact (ent_routine ref).quiet.bind fun _ => (call_routine rfl rfl).quiet.bind fun _ =>
            trivial

end Fine

/-! ## What a request leaves in the log -/

/-- An event of the request: its calls are allowed, and files that it gets are
numbered from `lo` to `hi`. -/
def Event.Fair (t : Nat) (E : Entries) (req : Request) (lo hi : Nat) : Event → Prop
  | enter t' c => t' = t ∧ Access E req c
  | leave t' c r => t' = t ∧ ∀ f, c.newFile r = some f → lo ≤ f.id ∧ f.id < hi
  | _ => True

/-- From `s` to `s'`, the request has added such events to the log. -/
structure Later (t : Nat) (E : Entries) (req : Request) (s s' : Store) : Prop where
  calls : s.calls ≤ s'.calls
  log : ∃ es, s'.log = s.log ++ es ∧ ∀ ev ∈ es, ev.Fair t E req s.calls s'.calls

section Later

variable {E : Entries} {req : Request}

theorem Event.Fair.mono {ev : Event} {lo hi hi' : Nat} (h : ev.Fair t E req lo hi)
    (hle : hi ≤ hi') : ev.Fair t E req lo hi' := by
  cases ev with
  | leave t' c r => exact ⟨h.1, fun f hf => ⟨(h.2 f hf).1, Nat.lt_of_lt_of_le (h.2 f hf).2 hle⟩⟩
  | _ => exact h

theorem Later.refl (s : Store) : Later t E req s s :=
  ⟨Nat.le_refl _, [], (List.append_nil _).symm, nofun⟩

theorem Later.of_eq (h : Later t E req s s₁) (hcalls : s'.calls = s₁.calls)
    (hlog : s'.log = s₁.log) : Later t E req s s' := by
  refine ⟨hcalls ▸ h.calls, ?_⟩
  rw [hcalls, hlog]
  exact h.log

theorem Later.record (h : Later t E req s s₁) {ev : Event} (hcalls : s₁.calls ≤ s'.calls)
    (hlog : s'.log = s₁.log ++ [ev]) (hev : ev.Fair t E req s.calls s'.calls) :
    Later t E req s s' := by
  obtain ⟨es, heq, hes⟩ := h.log
  refine ⟨Nat.le_trans h.calls hcalls, es ++ [ev], ?_, fun ev' hm => ?_⟩
  · rw [hlog, heq, List.append_assoc]
  · rcases List.mem_append.mp hm with hm | hm
    · exact (hes ev' hm).mono hcalls
    · rw [List.mem_singleton.mp hm]
      exact hev

theorem Later.exec (h : Later t E req s s₁) {b : Books} {e : Env} {r : c.Res}
    (hpre : Allowed E req b c) (hexec : exec s₁ t c e = some (r, s')) : Later t E req s s' := by
  cases c with
  | storeNew fid =>
      rcases exec_storeNew hexec with ⟨-, rfl⟩ | ⟨-, -, rfl⟩
      · exact h
      · exact h.record (Nat.le_refl _) rfl trivial
  | loadAndDelete fid =>
      rcases exec_loadAndDelete hexec with ⟨-, rfl⟩ | ⟨ref, -, -, rfl⟩
      · exact h
      · exact h.record (Nat.le_refl _) rfl trivial
  | delete fid =>
      cases hexec
      exact h.record (Nat.le_refl _) rfl trivial
  | lock ref =>
      obtain ⟨-, rfl⟩ := exec_lock hexec
      exact h.of_eq rfl rfl
  | unlock ref =>
      obtain rfl := exec_unlock hexec
      exact h.of_eq rfl rfl
  | load fid | getEnt ref | getFile ref | getMode ref =>
      cases hexec
      exact h
  | setEnt ref ent | setFile ref file | setMode ref mode =>
      cases hexec
      exact h.of_eq rfl rfl
  | enter c =>
      cases hexec
      exact h.record (Nat.le_refl _) rfl ⟨rfl, hpre⟩
  | leave c =>
      cases hexec
      refine h.record (Nat.le_succ _) rfl ⟨rfl, fun f hf => ?_⟩
      rw [(c.newFile_answer hf).1]
      exact ⟨h.calls, Nat.lt_succ_self _⟩

/-- A request that runs alone, whether it returns or waits. -/
theorem Request.run_later {s₀ : Store} (req : Request) (hs : s.Distinct)
    (h₀ : Later t s.entries req s₀ s) (env : Nat → Env) :
    (run exec t env req.prog s 0).Meets (fun _ s' => Later t s.entries req s₀ s')
      (fun c s' => s'.Distinct ∧ Later t s.entries req s₀ s' ∧
        ∀ ref, c = .lock ref → Fewer s.entries s'.entries) := by
  have hstep : ∀ {s₁ s₂ : Store} {b : Books} {c : Cmd} {e : Env} {r : c.Res},
      s₁.HasBooks b ∧ Later t s.entries req s₀ s₁ → Allowed s.entries req b c →
      exec s₁ t c e = some (r, s₂) →
      ∃ b', Books.Step t b c r b' ∧ s₂.HasBooks b' ∧ Later t s.entries req s₀ s₂ := by
    rintro s₁ s₂ b c e r ⟨hb, hlater⟩ hpre hexec
    obtain ⟨b', hstep, hb'⟩ := CanExec.books hb ⟨e, hexec⟩
    exact ⟨b', hstep, hb', hlater.exec hpre hexec⟩
  have hmeets : (run exec t env req.prog s 0).Meets _ _ :=
    Safe.run (I := fun s₁ b => s₁.HasBooks b ∧ Later t s.entries req s₀ s₁) hstep
      (req.fine (s.books hs)) ⟨⟨hs, rfl⟩, h₀⟩ 0
  cases hrun : run exec t env req.prog s 0 with
  | returned r s' n =>
      rw [hrun] at hmeets
      obtain ⟨b, -, -, hlater⟩ := hmeets
      exact hlater
  | crashed s' => trivial
  | blocked c s' =>
      rw [hrun] at hmeets
      obtain ⟨b, hpre, ⟨hs', rfl⟩, hlater⟩ := hmeets
      refine ⟨hs', hlater, ?_⟩
      rintro ref rfl
      exact hpre

theorem Request.start_later (req : Request) (s : Store) (t : Nat) :
    Later t E req s (req.start s t) := by
  cases req with
  | call op => exact (Later.refl s).record (Nat.le_refl _) rfl trivial
  | stop err fids => exact .refl s

theorem Gave.later {t' : Nat} (h : Later t E req s s') (hgave : Gave s'.log t' f) :
    Gave s.log t' f ∨ t' = t ∧ s.calls ≤ f.id ∧ f.id < s'.calls := by
  obtain ⟨c, r, hm, hf⟩ := hgave
  obtain ⟨es, hlog, hes⟩ := h.log
  rw [hlog] at hm
  rcases List.mem_append.mp hm with hm | hm
  · exact Or.inl ⟨c, r, hm, hf⟩
  · obtain ⟨rfl, hfresh⟩ := hes _ hm
    exact Or.inr ⟨rfl, hfresh f hf⟩

/-- A call that is in the log was there before, or is one of the request. -/
theorem Later.enter {t' : Nat} {c : Call} (h : Later t E req s s') (hm : .enter t' c ∈ s'.log) :
    .enter t' c ∈ s.log ∨ t' = t ∧ Access E req c := by
  obtain ⟨es, hlog, hes⟩ := h.log
  rw [hlog] at hm
  exact (List.mem_append.mp hm).imp id (hes (.enter t' c))

end Later

/-! ## What a request does to the table -/

/-- An entry with a `Dirent`, after a move: it was there with the same file, or
it is new, or its file is. -/
theorem Move.entry {E : Entries} {m : Move} {fid : Fid} {e : Entry} (hen : m.Enabled E)
    (h : m.apply E fid = some e) (hent : e.ent ≠ none) :
    (∃ e₀, E fid = some e₀ ∧ e₀.ent ≠ none ∧ e.file = e₀.file ∧ e.mode = e₀.mode) ∨
      (∃ d, m = .bind fid d ∧ e.file = none) ∨
      ∃ f d, e.file = some f ∧ m.opensAt = some (fid, e.mode) ∧ m.opens = some (d, f, e.mode) := by
  have hold : ∀ {fid₀ : Fid} {x : Option Entry}, Function.update E fid₀ x fid = some e →
      fid = fid₀ ∧ x = some e ∨
        ∃ e₀, E fid = some e₀ ∧ e₀.ent ≠ none ∧ e.file = e₀.file ∧ e.mode = e₀.mode := by
    intro fid₀ x h
    rcases Custody.of_update_eq_some h with h | ⟨-, h⟩
    · exact Or.inl h
    · exact Or.inr ⟨e, h, hent, rfl, rfl⟩
  cases m with
  | keep => exact Or.inl ⟨e, h, hent, rfl, rfl⟩
  | auth fid₀ file =>
      rcases hold h with ⟨rfl, heq⟩ | h
      · cases heq
        exact absurd rfl hent
      · exact Or.inl h
  | bind fid₀ d =>
      rcases hold h with ⟨rfl, heq⟩ | h
      · cases heq
        exact Or.inr (Or.inl ⟨d, rfl, rfl⟩)
      · exact Or.inl h
  | rebind fid₀ d d' =>
      rcases hold h with ⟨rfl, heq⟩ | h
      · obtain ⟨e₀, he₀, rfl⟩ := Option.map_eq_some_iff.mp heq
        obtain ⟨_, he₁, hd⟩ := Option.bind_eq_some_iff.mp hen
        cases he₀.symm.trans he₁
        exact Or.inl ⟨e₀, he₀, by rw [hd]; exact nofun, rfl, rfl⟩
      · exact Or.inl h
  | «open» fid₀ d f mode =>
      rcases hold h with ⟨rfl, heq⟩ | h
      · obtain ⟨e₀, he₀, rfl⟩ := Option.map_eq_some_iff.mp heq
        exact Or.inr (Or.inr ⟨f, d, rfl, rfl, rfl⟩)
      · exact Or.inl h
  | replace fid₀ d d' f mode =>
      rcases hold h with ⟨rfl, heq⟩ | h
      · cases heq
        exact Or.inr (Or.inr ⟨f, d', rfl, rfl, rfl⟩)
      · exact Or.inl h
  | drop fid₀ d =>
      rcases hold h with ⟨rfl, heq⟩ | h
      · cases heq
      · exact Or.inl h
  | sweep fid₀ d =>
      rcases hold h with ⟨rfl, heq⟩ | h
      · obtain ⟨e₀, -, rfl⟩ := Option.map_eq_some_iff.mp heq
        exact absurd rfl hent
      · exact Or.inl h

/-- The request `a` takes the entries from `E` to `E'`. -/
structure Takes (t : Nat) (E E' : Entries) (log : List Event) (a : Request × Option Ret) :
    Prop where
  entry : ∀ fid e, E' fid = some e → e.ent ≠ none →
    (∃ e₀, E fid = some e₀ ∧ e₀.ent ≠ none ∧ e.file = e₀.file ∧ e.mode = e₀.mode) ∨
      (Binds fid a ∧ e.file = none) ∨ ∃ f, e.file = some f ∧ Opens fid e.mode a ∧ Gave log t f
  again : ∀ fid, OpensAgain fid a → ∃ e, E fid = some e ∧ e.ent ≠ none ∧ e.file = none
  opens : ∀ fid mode, Opens fid mode a → ∀ e, E' fid = some e → e.file ≠ none

section Takes

variable {E E' : Entries} {log : List Event} {op : Op} {r : Ret} {m : Move} {fid : Fid}

theorem Op.Does.binds {d : Nat} (h : op.Does t log r (.bind fid d)) (hr : r.err = none) :
    Binds fid (.call op, some r) := by
  cases op with
  | attach fid' afid uname aname =>
      obtain ⟨d', heq⟩ := h
      cases heq
      exact ⟨rfl, hr⟩
  | walk fid' newfid names =>
      obtain ⟨qs, rfl, ⟨-, heq⟩ | ⟨hlen, d', -, ⟨hne, heq⟩ | ⟨-, -, d₀, heq⟩⟩⟩ := h
      · cases heq
      · cases heq
        exact ⟨rfl, Ne.symm hne, hlen⟩
      · cases heq
  | auth afid uname aname =>
      obtain ⟨heq, -⟩ | ⟨f, heq⟩ := h <;> cases heq
  | clunk fid' | remove fid' =>
      obtain ⟨d', heq⟩ := h
      cases heq
  | «open» fid' mode =>
      obtain ⟨d', f, heq⟩ := h
      cases heq
  | create parent name perm mode =>
      obtain ⟨d', d'', f, heq⟩ := h
      cases heq
  | read _ _ _ | write _ _ _ | stat _ | wstat _ _ => cases h

theorem Op.Does.drop (h : op.Does t log r m) (hop : op.isDelete) : ∃ fid d, m = .drop fid d := by
  cases op with
  | clunk fid | remove fid =>
      obtain ⟨d, rfl⟩ := h
      exact ⟨fid, d, rfl⟩
  | _ => cases hop

theorem Op.Explains.does (h : op.Explains t log r m) (hr : r.err = none) : op.Does t log r m := by
  rcases h with ⟨hne, -⟩ | ⟨-, hdoes⟩
  · exact absurd hr hne
  · exact hdoes

theorem Move.file_of_opensAt {e : Entry} (hm : m.opensAt = some (fid, mode))
    (h : m.apply E fid = some e) : e.file ≠ none := by
  cases m with
  | «open» fid' d f mode' =>
      cases hm
      rw [Move.apply, Function.update_self] at h
      obtain ⟨e₀, -, rfl⟩ := Option.map_eq_some_iff.mp h
      exact Option.some_ne_none f
  | replace fid' d d' f mode' =>
      cases hm
      rw [Move.apply, Function.update_self] at h
      cases h
      exact Option.some_ne_none f
  | _ => cases hm

/-- An operation that returns. -/
theorem takes_of_returned (hexp : op.Explains t log r m) (hen : m.Enabled E)
    (hgave : m.Gave log t) : Takes t E (m.apply E) log (.call op, some r) where
  entry fid e he hent := by
    refine (Move.entry hen he hent).imp id (Or.imp ?_ ?_)
    · rintro ⟨d, rfl, hfile⟩
      rcases hexp with ⟨-, -, heq⟩ | ⟨hr, hdoes⟩
      · cases heq
      · refine ⟨hdoes.binds (hr.resolve_right fun hdel => ?_), hfile⟩
        obtain ⟨fid', d', heq⟩ := hdoes.drop hdel
        cases heq
    · rintro ⟨f, d, hfile, hat, hopens⟩
      refine ⟨f, hfile, ?_, hgave d f e.mode hopens⟩
      rcases hexp with ⟨-, -, rfl⟩ | ⟨hr, hdoes⟩
      · cases hat
      · refine ⟨hdoes.opensAt.symm.trans hat, hr.resolve_right fun hdel => ?_⟩
        obtain ⟨fid', d', rfl⟩ := hdoes.drop hdel
        cases hat
  again fid h := by
    cases op with
    | «open» fid' mode =>
        obtain ⟨rfl, hr⟩ := h
        obtain ⟨d, f, rfl⟩ := hexp.does hr
        obtain ⟨hent, hfile⟩ := hen
        obtain ⟨e, he, hd⟩ := Option.bind_eq_some_iff.mp hent
        refine ⟨e, he, by rw [hd]; exact nofun, ?_⟩
        have hfile : (E fid').bind Entry.file = none := hfile
        rwa [he] at hfile
    | _ => exact h.elim
  opens fid mode h e he :=
    Move.file_of_opensAt ((hexp.does h.2).opensAt.trans h.1) he

/-- A request that waits. -/
theorem takes_of_fewer (h : Fewer E E') (req : Request) : Takes t E E' log (req, none) where
  entry fid e he hent := by
    rcases h fid with heq | hnone
    · exact Or.inl ⟨e, heq ▸ he, hent, rfl, rfl⟩
    · cases hnone.symm.trans he
  again fid h := by
    rcases req with op | _
    · cases op <;> exact h.elim
    · exact h.elim
  opens fid mode h := by
    rcases req with op | _ <;> exact h.elim

/-- `Stop` only takes `Dirent`s away. -/
theorem takes_of_stop {b b' : Books} {err : Option Err} {fids : List Fid}
    (h : Ran t (stop err fids) b r b') :
    Takes t b.entries b'.entries log (.stop err fids, some r) where
  entry fid e he hent := by
    let P := fun b₁ : Books => ∀ e, b₁.entries fid = some e → e.ent ≠ none → b.entries fid = some e
    have hP : P b' := by
      refine ran_stop h (fun _ he _ => he) ?_
      intro fid' _ b₁ b₂ hb₁ hsweep e he hent
      rw [sweep_entries hsweep] at he
      rcases Custody.of_update_eq_some he with ⟨-, heq⟩ | ⟨-, he⟩
      · obtain ⟨e₀, -, rfl⟩ := Option.map_eq_some_iff.mp heq
        exact absurd rfl hent
      · exact hb₁ e he hent
    exact Or.inl ⟨e, hP e he hent, hent, rfl, rfl⟩
  again _ h := h.elim
  opens _ _ h := h.elim

end Takes

/-! ## All sequences -/

/-- What every sequence of requests keeps. -/
structure Kept (u : Past) : Prop where
  distinct : u.store.Distinct
  past : ∀ t f, Gave u.store.log t f → t < u.history.length ∧ f.id < u.store.calls
  files : ∀ fid e f, u.store.entries fid = some e → e.ent ≠ none → e.file = some f →
    ∃ t, OpenedBy u f t fid e.mode
  shut : ∀ (i : Nat) a fid mode, u.history[i]? = some a → Opens fid mode a →
    (∃ k c, i < k ∧ u.history[k]? = some c ∧ Binds fid c) ∨
      ∀ e, u.store.entries fid = some e → e.ent ≠ none → e.file ≠ none
  modes : ModesEnforced u
  once : OpensOnce u

theorem Kept.blank : Kept .blank := by
  have hnil : ∀ (i : Nat) a, Past.blank.history[i]? ≠ some a := by
    intro i a h
    cases List.getElem?_nil.symm.trans h
  have hlog : ∀ ev, ev ∉ Past.blank.store.log := fun _ => List.not_mem_nil
  refine ⟨nofun, ?_, nofun, fun i a _ _ h => absurd h (hnil i a),
    ⟨fun _ _ _ _ h => absurd h (hlog _), fun _ _ _ _ h => absurd h (hlog _)⟩,
    fun i _ a _ _ _ _ h => absurd h (hnil i a)⟩
  rintro t f ⟨c, r, hm, -⟩
  exact absurd hm (hlog _)

section Step

variable {u : Past} {req : Request} {ret : Option Ret}

/-- The past after the request. -/
def Past.add (u : Past) (s : Store) (a : Request × Option Ret) : Past := ⟨s, u.history ++ [a]⟩

theorem Past.add_old {i : Nat} {a b : Request × Option Ret} (h : u.history[i]? = some b) :
    (u.add s a).history[i]? = some b :=
  (List.getElem?_append_left (List.getElem?_eq_some_iff.mp h).1).trans h

theorem Past.add_new (u : Past) (s : Store) (a : Request × Option Ret) :
    (u.add s a).history[u.history.length]? = some a :=
  List.getElem?_concat_length ..

theorem OpenedBy.add {t₀ : Nat} {fid : Fid} (hu : Kept u)
    (hl : Later u.history.length u.store.entries req u.store s') (h : OpenedBy u f t₀ fid mode) :
    OpenedBy (u.add s' (req, ret)) f t₀ fid mode where
  request := by
    obtain ⟨a, ha, hopens⟩ := h.request
    exact ⟨a, Past.add_old ha, hopens⟩
  gave := by
    obtain ⟨es, hlog, -⟩ := hl.log
    exact h.gave.mono (hlog ▸ List.subset_append_left _ _)
  only t hgave := by
    rcases hgave.later hl with hold | ⟨-, hle, -⟩
    · exact h.only t hold
    · exact absurd (hu.past t₀ f h.gave).2 (Nat.not_lt.mpr hle)

/-- The file that the request itself has opened. -/
theorem OpenedBy.new {fid : Fid} (hu : Kept u)
    (hl : Later u.history.length u.store.entries req u.store s')
    (hopens : Opens fid mode (req, ret)) (hgave : Gave s'.log u.history.length f) :
    OpenedBy (u.add s' (req, ret)) f u.history.length fid mode where
  request := ⟨_, u.add_new s' _, hopens⟩
  gave := hgave
  only t h := by
    have hnew : u.store.calls ≤ f.id := by
      rcases hgave.later hl with hold | ⟨-, hle, -⟩
      · exact absurd (hu.past _ f hold).1 (Nat.lt_irrefl _)
      · exact hle
    rcases h.later hl with hold | ⟨rfl, -⟩
    · exact absurd (hu.past t f hold).2 (Nat.not_lt.mpr hnew)
    · rfl

theorem OpenedEarlier.add {t fid} (hu : Kept u)
    (hl : Later u.history.length u.store.entries req u.store s')
    (h : OpenedEarlier u t fid f allowed) :
    OpenedEarlier (u.add s' (req, ret)) t fid f allowed := by
  obtain ⟨t₀, hlt, mode, hopened, hmode⟩ := h
  exact ⟨t₀, hlt, mode, hopened.add hu hl, hmode⟩

/-- The open file of a fid that the request reaches. -/
theorem OpenedEarlier.of_reaches {fid : Fid} (hu : Kept u)
    (h : u.store.entries.Reaches fid f allowed) :
    OpenedEarlier u u.history.length fid f allowed := by
  obtain ⟨e, he, hent, hfile, hmode⟩ := h
  obtain ⟨t₀, hopened⟩ := hu.files fid e f he hent hfile
  obtain ⟨a, ha, -⟩ := hopened.request
  exact ⟨t₀, (List.getElem?_eq_some_iff.mp ha).1, e.mode, hopened, hmode⟩

theorem Kept.modes_add (hu : Kept u)
    (hl : Later u.history.length u.store.entries req u.store s') :
    ModesEnforced (u.add s' (req, ret)) where
  read t f len offset hm := by
    rcases hl.enter hm with hold | ⟨rfl, fid, rfl, hreach⟩
    · obtain ⟨fid, ret', ha, hopened⟩ := hu.modes.read t f len offset hold
      exact ⟨fid, ret', Past.add_old ha, hopened.add hu hl⟩
    · exact ⟨fid, ret, u.add_new s' _, (OpenedEarlier.of_reaches hu hreach).add hu hl⟩
  write t f p offset hm := by
    rcases hl.enter hm with hold | ⟨rfl, fid, rfl, hreach⟩
    · obtain ⟨fid, ret', ha, hopened⟩ := hu.modes.write t f p offset hold
      exact ⟨fid, ret', Past.add_old ha, hopened.add hu hl⟩
    · exact ⟨fid, ret, u.add_new s' _, (OpenedEarlier.of_reaches hu hreach).add hu hl⟩

theorem Kept.add (hu : Kept u) (hs' : s'.Distinct)
    (hl : Later u.history.length u.store.entries req u.store s')
    (ht : Takes u.history.length u.store.entries s'.entries s'.log (req, ret)) :
    Kept (u.add s' (req, ret)) where
  distinct := hs'
  past t f h := by
    have hlen : (u.add s' (req, ret)).history.length = u.history.length + 1 := List.length_append
    rw [hlen]
    rcases h.later hl with hold | ⟨rfl, -, hlt⟩
    · obtain ⟨ht, hf⟩ := hu.past t f hold
      exact ⟨Nat.lt_succ_of_lt ht, Nat.lt_of_lt_of_le hf hl.calls⟩
    · exact ⟨Nat.lt_succ_self _, hlt⟩
  files fid e f he hent hfile := by
    rcases ht.entry fid e he hent with ⟨e₀, he₀, hent₀, hf, hmode⟩ | ⟨-, hnone⟩ |
      ⟨f', hf', hopens, hgave⟩
    · obtain ⟨t, hopened⟩ := hu.files fid e₀ f he₀ hent₀ (hf ▸ hfile)
      rw [hmode]
      exact ⟨t, hopened.add hu hl⟩
    · cases hnone.symm.trans hfile
    · cases hf'.symm.trans hfile
      exact ⟨_, .new hu hl hopens hgave⟩
  shut i a fid mode ha hopens := by
    rcases getElem?_snoc_cases ha with ha | ⟨rfl, rfl⟩
    · rcases hu.shut i a fid mode ha hopens with ⟨k, c, hlt, hk, hbinds⟩ | hclosed
      · exact Or.inl ⟨k, c, hlt, Past.add_old hk, hbinds⟩
      · by_cases hbinds : Binds fid (req, ret)
        · exact Or.inl ⟨_, _, (List.getElem?_eq_some_iff.mp ha).1, u.add_new s' _, hbinds⟩
        · refine Or.inr fun e he hent => ?_
          rcases ht.entry fid e he hent with ⟨e₀, he₀, hent₀, hf, -⟩ | ⟨h, -⟩ | ⟨f, hf, -⟩
          · rw [hf]
            exact hclosed e₀ he₀ hent₀
          · exact absurd h hbinds
          · rw [hf]
            exact nofun
    · exact Or.inr fun e he _ => ht.opens fid mode hopens e he
  modes := hu.modes_add hl
  once i j a b fid mode hij ha hopens hb hagain := by
    rcases getElem?_snoc_cases hb with hb | ⟨rfl, rfl⟩
    · have hi : i < u.history.length := Nat.lt_trans hij (List.getElem?_eq_some_iff.mp hb).1
      have ha : u.history[i]? = some a := by rwa [Past.add, List.getElem?_append_left hi] at ha
      obtain ⟨k, c, hik, hkj, hk, hbinds⟩ := hu.once i j a b fid mode hij ha hopens hb hagain
      exact ⟨k, c, hik, hkj, Past.add_old hk, hbinds⟩
    · have ha : u.history[i]? = some a := by rwa [Past.add, List.getElem?_append_left hij] at ha
      obtain ⟨e, he, hent, hfile⟩ := ht.again fid hagain
      rcases hu.shut i a fid mode ha hopens with ⟨k, c, hlt, hk, hbinds⟩ | hclosed
      · exact ⟨k, c, hlt, (List.getElem?_eq_some_iff.mp hk).1, Past.add_old hk, hbinds⟩
      · exact absurd hfile (hclosed e he hent)

end Step

theorem Request.start_entries (req : Request) (s : Store) (t : Nat) :
    (req.start s t).entries = s.entries := by
  cases req <;> rfl

theorem Request.start_distinct (req : Request) (t : Nat) (hs : s.Distinct) :
    (req.start s t).Distinct := by
  cases req with
  | call op => exact hs
  | stop err fids => exact hs

/-- A request that returns. -/
theorem Request.takes {r : Ret} (req : Request) (hs : s.Distinct)
    (h : run exec t env req.prog (req.start s t) 0 = .returned r s' n) :
    s'.Distinct ∧ Takes t s.entries s'.entries s'.log (req, some r) := by
  have hret := Returns.of_run h
  cases req with
  | call op =>
      have hop : .invoked t op ∈ (Session.start s t op).log :=
        List.mem_append_right _ (List.mem_singleton_self _)
      obtain ⟨hs', m, hexp, he, hgave⟩ := op.effect (s := Session.start s t op) hs hop hret
      have hentries : s'.entries = m.apply s.entries := he.entries
      rw [hentries]
      exact ⟨hs', takes_of_returned hexp he.enabled hgave⟩
  | stop err fids =>
      obtain ⟨hs', hran⟩ := books_returns hret hs
      exact ⟨hs', takes_of_stop hran⟩

theorem Kept.attempt {u : Past} (hu : Kept u) (h : attempt u a = some u') : Kept u' := by
  obtain ⟨req, env⟩ := a
  have hs := req.start_distinct u.history.length hu.distinct
  have hmeets := req.run_later hs (req.start_later u.store u.history.length) env
  rw [req.start_entries] at hmeets
  unfold Session.attempt at h
  dsimp only at h
  split at h
  · rename_i r s' n hrun
    cases h
    rw [hrun] at hmeets
    obtain ⟨hs', htakes⟩ := req.takes hu.distinct hrun
    exact hu.add hs' hmeets htakes
  · rename_i ref s' hrun
    cases h
    rw [hrun] at hmeets
    obtain ⟨hs', hlater, hfewer⟩ := hmeets
    exact hu.add hs' hlater (takes_of_fewer (hfewer ref rfl) req)
  · cases h
  · cases h

/-- In every sequence of requests the modes are enforced, and a fid is opened at
most once until it is bound again. -/
theorem modes_enforced (reqs : List (Request × (Nat → Env))) {u : Past}
    (hrun : Conc.exec attempt .blank reqs = some u) : ModesEnforced u ∧ OpensOnce u := by
  have hu : Kept u := reachable_invariant Kept.attempt .blank ⟨reqs, hrun⟩
  exact ⟨hu.modes, hu.once⟩

/-- Fid 1 is left locked by an `Attach` that takes it for its `afid`, and the
`Stat` after that waits forever.  Meanwhile fid 3 is opened and written. -/
def writesPastWaiting : List Op :=
  [.attach 1 noFid [] [], .attach 2 1 [] [], .stat 1, .attach 3 noFid [] [], .open 3 ordwr,
    .write 3 [1] 0]

theorem modes_enforced_past_waiting :
    ∃ u, Conc.exec attempt .blank (agreeably writesPastWaiting) = some u ∧
      u.history[2]? = some (.call (.stat 1), none) ∧
      .enter 5 (.write ⟨5, .readdir⟩ [1] 0) ∈ u.store.log ∧
      OpenedEarlier u 5 3 ⟨5, .readdir⟩ Writable := by
  obtain ⟨u, hu⟩ : ∃ u, Conc.exec attempt .blank (agreeably writesPastWaiting) = some u := ⟨_, rfl⟩
  obtain ⟨hmodes, -⟩ := modes_enforced _ hu
  have hwaits : u.history[2]? = some (.call (.stat 1), none) := by
    cases hu
    rfl
  have hwrites : u.history[5]? = some (.call (.write 3 [1] 0), some (.count 0 none)) := by
    cases hu
    rfl
  have hmem : .enter 5 (.write ⟨5, .readdir⟩ [1] 0) ∈ u.store.log := by
    cases hu
    exact List.mem_of_getElem? (i := 22) rfl
  refine ⟨u, hu, hwaits, hmem, ?_⟩
  obtain ⟨fid, ret, hreq, hopened⟩ := hmodes.write 5 _ _ _ hmem
  cases hwrites.symm.trans hreq
  exact hopened

end P9p.Session
