/-
# Who waits for whom

An operation of the session may have to wait for the mutex of an `SFid`.  What
it waits for is known in every run, whatever the others do.

**No cycles.**  A thread locks an `SFid` only while it holds no other, so the
owner of a mutex that somebody waits for is not waiting itself.  It can go on,
whatever the file system answers, with three exceptions (`Lost`):

    crashed    it has called a method on nil, and the process with it
    left       it is an `Attach` that has returned with its `aref` locked
    failed     it is a `Create` that could not open the directory it has made;
               its rollback waits for the mutex it holds

So there is no deadlock but those that a single operation brings about
(`waits_for_ready`).

**Coming to rest.**  An operation issues at most 27 commands
(`Op.prog_within`).  Once no more requests arrive, the session therefore comes
to rest after at most 27 steps for each operation that was invoked, in whatever
order they are taken, and then every operation has returned, but for those
that have crashed or wait for a mutex that is lost (`comes_to_rest`).
-/
import P9p.Session.Alone

namespace P9p.Session

open Conc

/-! ## How operations end -/

/-- An operation is one operation to its end. -/
theorem Ghost.post_op {o o' : Ghost} {c : Cmd} {r : c.Res} (h : o.post c r o') : o'.op = o.op := by
  cases c with
  | load _ | loadAndDelete _ | delete _ | unlock _ | getFile _ | setFile _ _ | getMode _
  | setMode _ _ | enter _ | leave _ =>
      cases h
      rfl
  | storeNew fid =>
      cases r with
      | none =>
          cases h
          rfl
      | some ref =>
          obtain ⟨-, rfl⟩ := h
          rfl
  | lock ref =>
      obtain ⟨-, e, rfl⟩ := h
      rfl
  | getEnt ref =>
      obtain ⟨-, rfl⟩ := h
      rfl
  | setEnt ref e =>
      cases e with
      | none =>
          cases h
          rfl
      | some d =>
          cases h
          rfl

/-- Everything is unlocked, or the operation is of the kind that may leave a
mutex locked. -/
def Ghost.Ended (o : Ghost) : Prop := o.Released ∨ ∃ op, o.op = some op ∧ op.mayLeak

theorem Op.prog_ended (op : Op) : Keeps (fun _ o => o.Ended) op.prog (Ghost.begin op) := by
  refine (Safe.fixed Ghost.op Ghost.post_op op.prog_keeps).mono ?_
  rintro _ o ⟨hreleased | hleak, hop⟩
  · exact Or.inl hreleased
  · exact Or.inr ⟨op, hop, hleak⟩

/-! ## How long they are -/

section Within

variable {α : Type} {n : Nat} {ref : Nat}

theorem call_within (c : Call) : (call c).Within 2 := fun _ _ => trivial

theorem ent_within (ref : Nat) : (ent ref).Within 1 := by
  rintro (_ | d)
  · trivial
  · trivial

theorem file_within (ref : Nat) : (file ref).Within 1 := by
  rintro (_ | f)
  · trivial
  · trivial

theorem isDir_within (d : Nat) : (isDir d).Within 2 := fun _ _ => trivial

theorem ioUnit_within (f : File) : (ioUnit f).Within 2 := by
  unfold ioUnit
  split
  · trivial
  · exact fun _ _ => trivial

theorem getRef_within (fid : Fid) : (getRef fid).Within 4 := by
  unfold getRef
  split
  · trivial
  · refine Prog.Within.cmd ?_
    rintro (_ | ref)
    · trivial
    · refine fun _ => Prog.Within.cmd ?_
      rintro (_ | d)
      · exact fun _ => trivial
      · trivial

theorem newRef_within (fid : Fid) : (newRef fid).Within 1 := by
  unfold newRef
  split
  · trivial
  · refine Prog.Within.cmd ?_
    rintro (_ | ref)
    · trivial
    · trivial

theorem deferUnlock_within {body : M α} (h : body.Within n) :
    (deferUnlock ref body).Within (n + 1) :=
  h.bind fun _ _ => trivial

theorem withRef_within {fail : Err → Ret} {body : Nat → M Ret} (fid : Fid)
    (h : ∀ ref, (body ref).Within n) : (withRef fid fail body).Within (4 + (n + 1)) := by
  refine (getRef_within fid).bind ?_
  rintro (err | ref)
  · trivial
  · exact deferUnlock_within (h ref)

theorem withNewRef_within {fail : Err → Ret} {body : Nat → M Ret} (fid : Fid)
    (h : ∀ ref, (body ref).Within n) : (withNewRef fid fail body).Within (1 + (n + 1)) := by
  refine (newRef_within fid).bind ?_
  rintro (err | ref)
  · trivial
  · exact deferUnlock_within (h ref)

theorem delRefAction_within (ref : Nat) (remove : Bool) :
    (delRefAction ref remove).Within (1 + (2 + 1)) := by
  refine (ent_within ref).bind fun d => ?_
  cases remove with
  | true => exact (call_within (.remove d)).bind fun _ _ => trivial
  | false => exact (call_within (.clunk d)).bind fun _ _ => trivial

theorem delRef_within (fid : Fid) (remove : Bool) : (delRef fid remove).Within 8 := by
  refine Prog.Within.cmd ?_
  rintro (_ | ref)
  · trivial
  · refine fun _ => deferUnlock_within (n := 5) (Prog.Within.cmd ?_)
    rintro (_ | d)
    · trivial
    · exact delRefAction_within ref remove

theorem auth_within (afid : Fid) (uname aname : Bytes) : (auth afid uname aname).Within 7 := by
  unfold auth
  split
  · trivial
  · refine (call_within .requireAuth).bind (m := 5) fun required => ?_
    split
    · trivial
    · refine withNewRef_within (n := 3) afid fun aref => ?_
      refine (call_within (.auth uname aname)).bind (m := 1) ?_
      rintro ⟨afile, _ | err⟩
      · exact fun _ => trivial
      · exact fun _ => trivial

theorem attachWith_within (fid : Fid) (uname aname : Bytes) (af : Option File) :
    (attachWith fid uname aname af).Within 7 := by
  refine withNewRef_within (n := 5) fid fun ref => ?_
  refine (call_within (.attach uname aname af)).bind (m := 3) ?_
  rintro ⟨e, _ | err⟩
  · refine fun _ => ?_
    cases e with
    | none => trivial
    | some d => exact (call_within (.qid d)).bind (m := 0) fun _ => trivial
  · exact fun _ => trivial

theorem attachFile_within (fid : Fid) (aref : Nat) (uname aname : Bytes) :
    (attachFile fid aref uname aname).Within 11 := by
  refine deferUnlock_within (n := 10) (Prog.Within.cmd ?_)
  rintro (_ | ⟨id, _ | _ | _⟩)
  · trivial
  · trivial
  · refine (call_within (.success ⟨id, .auth⟩)).bind (m := 7) fun ok => ?_
    split
    · trivial
    · exact attachWith_within fid uname aname _
  · trivial

theorem attach_within (fid afid : Fid) (uname aname : Bytes) :
    (attach fid afid uname aname).Within 16 := by
  unfold attach
  split
  · exact (attachWith_within fid uname aname none).mono (by omega)
  · refine (getRef_within afid).bind (m := 12) ?_
    rintro (err | aref)
    · trivial
    · refine Prog.Within.cmd ?_
      rintro (_ | f)
      · trivial
      · exact attachFile_within fid aref uname aname

theorem walkEnt_within (ref : Nat) (same : Bool) (names : List Bytes) :
    (walkEnt ref same names).Within 6 := by
  have hwalk : ∀ (d : Nat) (ns : List Bytes)
      (k : List Qid × Option Nat × Option Err → M (Except Ret (List Qid × Nat))),
      (∀ r, (k r).Within 0) → (call (.walk d ns) >>= k).Within 2 := by
    intro d ns k hk
    exact (call_within (.walk d ns)).bind hk
  unfold walkEnt
  split
  · split
    · trivial
    · refine ((ent_within ref).bind fun d => hwalk d [] _ ?_).mono (by omega)
      rintro ⟨qids, _ | d', _ | err⟩ <;> trivial
  · refine (ent_within ref).bind (m := 5) fun d => ?_
    refine (isDir_within d).bind (m := 3) fun dir => ?_
    split
    · refine (ent_within ref).bind (m := 2) fun d => hwalk d names _ ?_
      rintro ⟨qids, _ | d', _ | err⟩
      · trivial
      · trivial
      · dsimp only [ensureNonNil]
        split <;> trivial
      · trivial
    · trivial

theorem walkCleanup_within (newfid : Fid) (ref : Nat) (newref : Option Nat) :
    (walkCleanup newfid ref newref).Within 3 := by
  cases newref with
  | none => exact fun _ => trivial
  | some newref => exact fun _ _ _ => trivial

theorem walkLocked_within (ref : Nat) (newref : Option Nat) (names : List Bytes) :
    (walkLocked ref newref names).Within 10 := by
  refine (walkEnt_within ref newref.isNone names).bind (m := 4) ?_
  rintro (r | ⟨qids, d⟩)
  · trivial
  · dsimp only
    split
    · trivial
    · cases newref with
      | none =>
          refine (ent_within ref).bind (m := 3) fun d' => ?_
          exact (call_within (.clunk d')).bind (m := 1) fun _ _ => trivial
      | some newref => exact fun _ _ => trivial

theorem walk_within (fid newfid : Fid) (names : List Bytes) :
    (walk fid newfid names).Within 18 := by
  unfold walk
  split
  · trivial
  · refine (getRef_within fid).bind (m := 14) ?_
    rintro (err | ref)
    · trivial
    · have href : (walkRef fid newfid).Within 1 := by
        unfold walkRef
        split
        · trivial
        · refine (newRef_within newfid).bind (m := 0) ?_
          rintro (err | newref) <;> trivial
      refine href.bind (m := 13) ?_
      rintro (err | newref)
      · refine Prog.Within.mono (n := 3) ?_ (by omega)
        exact (walkCleanup_within newfid ref none).bind (m := 0) fun _ => trivial
      · refine (walkLocked_within ref newref names).bind (m := 3) ?_
        rintro ⟨r, ref', newref'⟩
        exact (walkCleanup_within newfid ref' newref').bind (m := 0) fun _ => trivial

theorem transfer_within {refuses : Flag → Bool} {denied : Err} {io : File → M (Int × Option Err)}
    (hio : ∀ f, (io f).Within 2) (fid : Fid) : (transfer fid refuses denied io).Within 10 := by
  refine withRef_within (n := 5) fid fun ref => Prog.Within.cmd ?_
  rintro (_ | f)
  · trivial
  · refine Prog.Within.cmd fun mode => ?_
    split
    · trivial
    · refine (file_within ref).bind (m := 2) fun g => ?_
      exact (hio g).bind (m := 0) fun _ => trivial

theorem openEnt_within {getEnt : M Nat} {n : Nat} (hget : getEnt.Within n) (mode : Flag) :
    (openEnt getEnt mode).Within (n + (2 + (n + 2))) := by
  refine hget.bind fun d => (isDir_within d).bind fun dir => ?_
  split
  · refine hget.bind fun d => (call_within (.openDir d)).bind (m := 0) ?_
    rintro ⟨dirs, _ | err⟩ <;> trivial
  · exact hget.bind fun d => (call_within (.open d mode)).bind (m := 0) fun _ => trivial

theorem openLocked_within (ref : Nat) (mode : Flag) : (openLocked ref mode).Within 9 := by
  refine Prog.Within.cmd ?_
  rintro (_ | f)
  · refine (openEnt_within (ent_within ref) mode).bind (m := 2) ?_
    rintro (err | f)
    · trivial
    · exact fun _ _ => trivial
  · trivial

theorem open_within (fid : Fid) (mode : Flag) : (Session.open fid mode).Within 20 := by
  refine withRef_within (n := 15) fid fun ref => ?_
  refine (openLocked_within ref mode).bind (m := 6) ?_
  rintro (_ | err)
  · refine (ent_within ref).bind (m := 5) fun d => ?_
    refine (call_within (.qid d)).bind (m := 3) fun q => ?_
    refine (file_within ref).bind (m := 2) fun f => ?_
    exact (ioUnit_within f).bind (m := 0) fun _ => trivial
  · trivial

theorem replaceEnt_within (ref d : Nat) (f : File) (mode : Flag) :
    (replaceEnt ref d f mode).Within 10 := by
  refine fun _ _ _ _ _ => (ent_within ref).bind (m := 4) fun d => ?_
  refine (call_within (.qid d)).bind (m := 2) fun q => ?_
  exact (ioUnit_within f).bind (m := 0) fun _ => trivial

theorem createLocked_within (ref : Nat) (parent : Fid) (name : Bytes) (perm : UInt32)
    (mode : Flag) : (createLocked ref parent name perm mode).Within 22 := by
  refine (ent_within ref).bind (m := 21) fun d => ?_
  refine (isDir_within d).bind (m := 19) fun dir => ?_
  split
  · refine (ent_within ref).bind (m := 18) fun d => ?_
    refine (call_within (.create d name perm mode)).bind (m := 16) ?_
    rintro ⟨e, f, err⟩
    dsimp only
    split
    · trivial
    · rename_i d' f' _
      refine (isDir_within d').bind (m := 14) fun dir' => ?_
      split
      · have hget : (pure d' : M Nat).Within 0 := trivial
        refine (openEnt_within hget mode).bind (m := 10) ?_
        rintro (err | g)
        · refine Prog.Within.mono (n := 8) ?_ (by omega)
          exact (delRef_within parent false).bind (m := 0) fun _ => trivial
        · exact replaceEnt_within ref d' g mode
      · exact (replaceEnt_within ref d' f' mode).mono (by omega)
  · trivial

theorem create_within (parent : Fid) (name : Bytes) (perm : UInt32) (mode : Flag) :
    (create parent name perm mode).Within 27 := by
  unfold create
  split
  · trivial
  · exact withRef_within (n := 22) parent fun ref => createLocked_within ref parent name perm mode

theorem stat_within (fid : Fid) : (stat fid).Within 8 := by
  refine withRef_within (n := 3) fid fun ref => ?_
  refine (ent_within ref).bind (m := 2) fun d => ?_
  exact (call_within (.stat d)).bind (m := 0) fun _ => trivial

theorem wstat_within (fid : Fid) (dir : Dir) : (wstat fid dir).Within 8 := by
  refine withRef_within (n := 3) fid fun ref => ?_
  refine (ent_within ref).bind (m := 2) fun d => ?_
  exact (call_within (.wstat d dir)).bind (m := 0) fun _ => trivial

end Within

theorem Op.prog_within (op : Op) : op.prog.Within 27 := by
  cases op with
  | auth afid uname aname => exact (auth_within afid uname aname).mono (by omega)
  | attach fid afid uname aname => exact (attach_within fid afid uname aname).mono (by omega)
  | clunk fid =>
      refine Prog.Within.mono (n := 8) ?_ (by omega)
      exact (delRef_within fid false).bind (m := 0) fun _ => trivial
  | remove fid =>
      refine Prog.Within.mono (n := 8) ?_ (by omega)
      exact (delRef_within fid true).bind (m := 0) fun _ => trivial
  | walk fid newfid names => exact (walk_within fid newfid names).mono (by omega)
  | read fid len offset =>
      exact (transfer_within (fun f => call_within _) fid).mono (by omega)
  | write fid p offset =>
      exact (transfer_within (fun f => call_within _) fid).mono (by omega)
  | «open» fid mode => exact (open_within fid mode).mono (by omega)
  | create parent name perm mode => exact create_within parent name perm mode
  | stat fid => exact (stat_within fid).mono (by omega)
  | wstat fid dir => exact (wstat_within fid dir).mono (by omega)

/-! ## Waiting -/

/-- Thread `t` can go on, whatever the environment chooses. -/
def Ready (s : State) (t : Nat) : Prop := ∀ env, ∃ s', step s (.run t env) = some s'

/-- Thread `t` waits for the mutex of `ref`, which `u` has locked. -/
def Waits (s : State) (t ref u : Nat) : Prop :=
  (∃ k, s.threads[t]? = some (.cmd (.lock ref) k)) ∧ (s.store.sfid ref).owner = some u

/-- Thread `u` keeps what it has locked for ever. -/
inductive Lost (s : State) (u : Nat) : Prop where
  | crashed : s.threads[u]? = some .crash → Lost s u
  | left {r : Ret} {op : Op} : s.threads[u]? = some (.ret r) → .invoked u op ∈ s.store.log →
      op.mayLeak → Lost s u
  | failed {op : Op} : .invoked u op ∈ s.store.log → op.isCreate → OpenFailed u s.store.log →
      Lost s u

section Waiting

variable {s : State} {f : Nat → Ghost} {t u : Nat}

/-- Only `lock` waits. -/
theorem Locks.exec_or_waits {st : Store} (L : Locks st f) {c : Cmd} (hpre : (f t).pre c) :
    (∀ env, ∃ p, exec st t c env = some p) ∨
      ∃ ref u, c = .lock ref ∧ (st.sfid ref).owner = some u := by
  cases c with
  | lock ref =>
      cases howner : (st.sfid ref).owner with
      | none => exact Or.inl fun env => ⟨_, exec_lock_free howner⟩
      | some u => exact Or.inr ⟨ref, u, rfl, howner⟩
  | unlock ref =>
      obtain ⟨-, e, he⟩ := hpre
      refine Or.inl fun env => ?_
      simp only [exec, (L.live he).2.1]
      exact ⟨_, rfl⟩
  | storeNew fid | loadAndDelete fid =>
      refine Or.inl fun env => ?_
      simp only [exec]
      split
      · exact ⟨_, rfl⟩
      · exact ⟨_, rfl⟩
  | load _ | delete _ | getEnt _ | setEnt _ _ | getFile _ | setFile _ _ | getMode _ | setMode _ _
  | enter _ | leave _ => exact Or.inl fun env => ⟨_, rfl⟩

/-- A thread that has not come to its end can go on or waits. -/
theorem ready_or_waits (h : ownership.Met (fun _ o => o.Ended) s f) {c : Cmd} {k : c.Res → M Ret}
    (ht : s.threads[t]? = some (.cmd c k)) : Ready s t ∨ ∃ ref u, Waits s t ref u := by
  have hpre : (f t).pre c := (h.safe t _ ht).1
  rcases h.inv.1.exec_or_waits hpre with hexec | ⟨ref, u, rfl, howner⟩
  · refine Or.inl fun env => ?_
    obtain ⟨p, hp⟩ := hexec env
    simp only [step, Pool.step, ht, hp, Option.map_some]
    exact ⟨_, rfl⟩
  · exact Or.inr ⟨ref, u, ⟨k, ht⟩, howner⟩

/-- Whoever has locked a mutex that somebody waits for does not wait. -/
theorem Waits.ready_or_lost (h : ownership.Met (fun _ o => o.Ended) s f) {ref : Nat}
    (hw : Waits s t ref u) : Ready s u ∨ Lost s u := by
  obtain ⟨⟨k, ht⟩, howner⟩ := hw
  obtain ⟨L, R, H⟩ := h.inv
  have hpre : (f t).pre (.lock ref) := (h.safe t _ ht).1
  have hheld : (f u).held ref ≠ .free := H ref u (L.known t ref hpre.2.1) howner trivial
  cases hu : s.threads[u]? with
  | none =>
      -- a thread that was not started holds nothing
      have hidle : f u = Ghost.idle := h.idle u (List.getElem?_eq_none_iff.mp hu)
      rw [hidle] at hheld
      exact absurd rfl hheld
  | some p =>
      have hsafe := h.safe u p hu
      cases p with
      | crash => exact Or.inr (.crashed hu)
      | ret r =>
          rcases hsafe with hreleased | ⟨op, hop, hleak⟩
          · exact absurd (hreleased ref) hheld
          · exact Or.inr (.left hu ((R.op u op).mp hop) hleak)
      | cmd c k' =>
          rcases L.exec_or_waits (t := u) hsafe.1 with hexec | ⟨ref', u', rfl, -⟩
          · refine Or.inl fun env => ?_
            obtain ⟨p, hp⟩ := hexec env
            simp only [step, Pool.step, hu, hp, Option.map_some]
            exact ⟨_, rfl⟩
          · -- it holds `ref` and is about to lock another: the rollback of `Create`
            have hpre' : (f u).pre (.lock ref') := hsafe.1
            have hfailed : (f u).failed :=
              hpre'.2.2.resolve_left fun hreleased => hheld (hreleased ref)
            obtain ⟨⟨op, hop, hcreate⟩, hopen⟩ := R.failed u hfailed
            exact Or.inr (.failed ((R.op u op).mp hop) hcreate hopen)

theorem met_of_exec {acts : List (Sched Op Env)} (hrun : Conc.exec step initial acts = some s) :
    ∃ f, ownership.Met (fun _ o => o.Ended) s f := by
  have hfree : Held (fun _ => True) init fun _ => Ghost.idle :=
    fun ref u hlt => absurd hlt (Nat.not_lt_zero ref)
  have h₀ : ownership.inv init fun _ => ownership.idle :=
    ⟨Locks.idle init, Records.init init rfl, hfree⟩
  exact Protocol.sound_met Op.prog_ended h₀ acts
    (ownership.guarded_of_forall (fun _ _ _ _ => trivial) _ _) hrun

end Waiting

/-- In every run of a session, an operation that has not come to its end can go
on, or waits for one that can, or for one that is lost. -/
theorem waits_for_ready (acts : List (Sched Op Env)) (s : State)
    (hrun : Conc.exec step initial acts = some s) (t : Nat) (c : Cmd) (k : c.Res → M Ret)
    (ht : s.threads[t]? = some (.cmd c k)) :
    Ready s t ∨ ∃ ref u, Waits s t ref u ∧ (Ready s u ∨ Lost s u) := by
  obtain ⟨f, h⟩ := met_of_exec hrun
  rcases ready_or_waits h ht with hready | ⟨ref, u, hw⟩
  · exact Or.inl hready
  · exact Or.inr ⟨ref, u, hw, hw.ready_or_lost h⟩

/-- Fid 1 is bound; of two `Stat`s on it, thread 1 has locked the `SFid` and
thread 2 waits. -/
def twoStats : List (Sched Op Env) :=
  .invoke (.attach 1 noFid [] []) :: turns 0 7 agreeable ++
    [.invoke (.stat 1), .invoke (.stat 1)] ++ turns 1 2 agreeable ++ turns 2 1 agreeable

theorem waits_for_ready_twoStats :
    ∃ s k, Conc.exec step initial twoStats = some s ∧
      s.threads[2]? = some (.cmd (.lock 0) k) ∧ (s.store.sfid 0).owner = some 1 ∧
      (Ready s 2 ∨ ∃ ref u, Waits s 2 ref u ∧ (Ready s u ∨ Lost s u)) :=
  ⟨_, _, rfl, rfl, rfl, waits_for_ready twoStats _ rfl 2 _ _ rfl⟩

/-! ## Coming to rest -/

/-- What is invoked is within its bound, and stays so. -/
theorem within_of_exec (acts : List (Sched Op Env)) {s : State}
    (hrun : Conc.exec step initial acts = some s) :
    ∀ (t : Nat) p, s.threads[t]? = some p → p.Within 27 := by
  refine reachable_invariant
    (I := fun s : State => ∀ (t : Nat) p, s.threads[t]? = some p → p.Within 27) ?_ ?_ ⟨acts, hrun⟩
  · intro s a s' h hstep
    cases a with
    | invoke op =>
        cases hstep
        intro t p ht
        rcases getElem?_snoc_cases ht with ht | ⟨-, rfl⟩
        · exact h t p ht
        · exact op.prog_within
    | run t env =>
        obtain ⟨c, k, r, st, hget, -, rfl⟩ := Pool.step_run hstep
        intro t' p ht
        rcases getElem?_set_cases ht with ⟨-, rfl⟩ | ⟨-, ht⟩
        · exact (h t _ hget r : (k r).Within 26).mono (Nat.le_succ 26)
        · exact h t' p ht
  · intro t p ht
    cases ht

/-- Once nothing more is invoked, the session comes to rest, and then every
operation has returned, has crashed or waits for one that is lost. -/
theorem comes_to_rest (acts : List (Sched Op Env)) (s s' : State) (runs : List (Nat × Env))
    (hrun : Conc.exec step initial acts = some s)
    (hruns : Conc.exec step s (runs.map fun p => .run p.1 p.2) = some s') :
    runs.length ≤ 27 * s.threads.length ∧
      ((∀ t env, step s' (.run t env) = none) → ∀ (t : Nat) p, s'.threads[t]? = some p →
        (∃ r, p = .ret r) ∨ p = .crash ∨ ∃ ref u, Waits s' t ref u ∧ Lost s' u) := by
  constructor
  · have hwithin : s.Within (List.replicate s.threads.length 27) := by
      refine List.forall₂_iff_get.mpr ⟨List.length_replicate, fun i hi hi' => ?_⟩
      rw [List.get_eq_getElem, List.getElem_replicate]
      exact within_of_exec acts hrun i _ (List.getElem?_eq_getElem hi')
    have hle := hwithin.length_le hruns
    rw [List.sum_replicate_nat] at hle
    rw [Nat.mul_comm]
    exact hle
  · intro hrest t p ht
    have hrun' : Conc.exec step initial (acts ++ runs.map fun p => .run p.1 p.2) = some s' := by
      rw [exec_append, hrun]
      exact hruns
    have hstuck : ∀ u, ¬ Ready s' u := by
      intro u hready
      obtain ⟨s'', hs''⟩ := hready agreeable
      rw [hrest u agreeable] at hs''
      cases hs''
    cases p with
    | ret r => exact Or.inl ⟨r, rfl⟩
    | crash => exact Or.inr (Or.inl rfl)
    | cmd c k =>
        obtain ⟨f, h⟩ := met_of_exec hrun'
        rcases ready_or_waits h ht with hready | ⟨ref, u, hw⟩
        · exact absurd hready (hstuck t)
        · rcases hw.ready_or_lost h with hready | hlost
          · exact absurd hready (hstuck u)
          · exact Or.inr (Or.inr ⟨ref, u, hw, hlost⟩)

/-- The two `Stat`s go on, thread 1 first. -/
def bothStats : List (Nat × Env) :=
  List.replicate 5 (1, agreeable) ++ List.replicate 6 (2, agreeable)

theorem comes_to_rest_twoStats :
    ∃ s s', Conc.exec step initial twoStats = some s ∧
      Conc.exec step s (bothStats.map fun p => .run p.1 p.2) = some s' ∧
      s'.threads[2]? = some (.ret (.stat Dir.zero none)) ∧
      bothStats.length ≤ 27 * s.threads.length ∧
      ((∀ t env, step s' (.run t env) = none) → ∀ (t : Nat) p, s'.threads[t]? = some p →
        (∃ r, p = .ret r) ∨ p = .crash ∨ ∃ ref u, Waits s' t ref u ∧ Lost s' u) :=
  ⟨_, _, rfl, rfl, rfl, comes_to_rest twoStats _ _ bothStats rfl rfl⟩

end P9p.Session
