/-
# One operation alone

An operation that runs with nothing else going on, on an arbitrary table: what
it leaves locked, and whether it locks a mutex it holds.

**Released.**  On a table with no mutex locked, an operation that returns
leaves none locked that can be reached through `refs`, with one exception:
`Attach` with an `afid` that is bound to a linked `SFid` without a `File`
(`released_iff`).  There `Attach` returns before it has deferred the unlock.

**Self-locking.**  An operation locks a mutex it holds exactly if it is a
`Create` and the session could not open the directory it has made
(`selfLocks_iff`).  The rollback is `delRef` on the parent's fid, and the
parent is still locked.

Both are proved from the discipline of commands, through `Safe.run`; what a
lookup does on a table that nobody else touches is computed.
-/
import P9p.Session.Locks
import P9p.Session.Operations

namespace P9p.Session

open Conc

variable {e : Env} {fid : Fid} {c : Cmd} {r : c.Res} {tbl : Table}

/-- The operation `op` on the table `tbl`, in thread `t`; `env` answers its
calls. -/
def runAlone (tbl : Table) (calls t : Nat) (env : Nat → Env) (op : Op) : Outcome Cmd Ret Store :=
  run exec t env op.prog (start { tbl with calls, log := [] } t op) 0

variable {s s' : Store} {t n : Nat} {env : Nat → Env} {o : Ghost}

/-! ## Looking up a fid -/

theorem Store.modify_modify (s : Store) (ref : Nat) (g g' : SFid → SFid) :
    (s.modify ref g).modify ref g' = s.modify ref (g' ∘ g) := by
  simp only [Store.modify, Function.update_self, Function.update_idem, Function.comp_apply]

theorem Store.modify_eq_self (s : Store) {ref : Nat} {g : SFid → SFid}
    (h : g (s.sfid ref) = s.sfid ref) : s.modify ref g = s := by
  simp only [Store.modify, h, Function.update_eq_self]

/-- Lock `ref` as thread `t`. -/
def Store.lock (s : Store) (t ref : Nat) : Store := s.modify ref fun g => { g with owner := some t }

theorem exec_lock_free {ref : Nat} (h : (s.sfid ref).owner = none) :
    exec s t (.lock ref) e = some ((), s.lock t ref) := by
  simp only [exec, h]
  rfl

theorem exec_lock_taken {ref u : Nat} (h : (s.sfid ref).owner = some u) :
    exec s t (.lock ref) e = none := by
  simp only [exec, h]

theorem Store.lock_sfid_self (s : Store) (t ref : Nat) :
    (s.lock t ref).sfid ref = { s.sfid ref with owner := some t } :=
  Store.modify_sfid_self ..

/-- Unlocking undoes locking. -/
theorem exec_unlock_lock {ref : Nat} (h : (s.sfid ref).owner = none) :
    exec (s.lock t ref) t (.unlock ref) e = some ((), s) := by
  simp only [exec, Store.lock_sfid_self]
  refine congrArg (fun x => some ((), x)) ?_
  rw [Store.lock, Store.modify_modify]
  refine s.modify_eq_self ?_
  show SFid.mk none _ _ _ = _
  rw [← h]

/-- A fid that `getRef` does not find, or finds without an `Ent`. -/
def Unavailable (s : Store) (fid : Fid) : Prop :=
  fid = noFid ∨ s.refs fid = none ∨
    ∃ ref, s.refs fid = some ref ∧ (s.sfid ref).owner = none ∧ (s.sfid ref).ent = none

/-- Then `getRef` fails and leaves the store as it was. -/
theorem run_getRef_unavailable (t : Nat) (env : Nat → Env) (n : Nat) (h : Unavailable s fid) :
    ∃ n', run exec t env (getRef fid) s n = .returned (.error .unknownfid) s n' := by
  unfold getRef
  split
  · exact ⟨n, rfl⟩
  · rename_i hfid
    rcases h with h | h | ⟨ref, href, howner, hent⟩
    · exact absurd h hfid
    · refine ⟨n + 1, (run_then rfl).trans ?_⟩
      rw [h]
      rfl
    · refine ⟨n + 4, (run_then rfl).trans ?_⟩
      rw [href]
      refine (run_then (exec_lock_free howner)).trans ((run_then rfl).trans ?_)
      rw [Store.lock_sfid_self]
      dsimp only
      rw [hent]
      exact run_then (exec_unlock_lock howner)

theorem run_getRef_ok {ref d : Nat} (hfid : fid ≠ noFid) (href : s.refs fid = some ref)
    (howner : (s.sfid ref).owner = none) (hent : (s.sfid ref).ent = some d) :
    run exec t env (getRef fid) s n = .returned (.ok ref) (s.lock t ref) (n + 3) := by
  unfold getRef
  rw [if_neg hfid]
  refine (run_then rfl).trans ?_
  rw [href]
  refine (run_then (exec_lock_free howner)).trans ((run_then rfl).trans ?_)
  rw [Store.lock_sfid_self]
  dsimp only
  rw [hent]
  rfl

theorem run_getRef_taken {ref u : Nat} (hfid : fid ≠ noFid) (href : s.refs fid = some ref)
    (howner : (s.sfid ref).owner = some u) :
    run exec t env (getRef fid) s n = .blocked (.lock ref) s := by
  unfold getRef
  rw [if_neg hfid]
  refine (run_then rfl).trans ?_
  rw [href]
  exact run_blocked (exec_lock_taken howner)

/-! ## No mutex is forgotten -/

/-- Of the threads in `T`, each knows of every mutex it has locked. -/
def Held (T : Nat → Prop) (s : Store) (f : Nat → Ghost) : Prop :=
  ∀ ref u, ref < s.next → (s.sfid ref).owner = some u → T u → (f u).held ref ≠ .free

namespace Held

variable {T : Nat → Prop} {f : Nat → Ghost}

/-- A command that changes no mutex. -/
theorem frame (H : Held T s f) (howner : ∀ ref, (s'.sfid ref).owner = (s.sfid ref).owner)
    (hnext : s'.next = s.next) (hheld : ∀ ref, (f t).held ref ≠ .free → o.held ref ≠ .free) :
    Held T s' (Function.update f t o) := by
  intro ref u hlt h hT
  rw [howner] at h
  rw [hnext] at hlt
  by_cases hu : u = t
  · subst hu
    rw [Function.update_self]
    exact hheld ref (H ref u hlt h hT)
  · rw [Function.update_of_ne hu]
    exact H ref u hlt h hT

/-- A command on the mutex of `ref`. -/
theorem change (H : Held T s f) {ref : Nat} (slot : Slot)
    (hrest : ∀ ref', ref' ≠ ref → s'.sfid ref' = s.sfid ref')
    (hnext : ∀ ref', ref' ≠ ref → ref' < s'.next → ref' < s.next)
    (hheld : o.held = Function.update (f t).held ref slot)
    (href : ∀ u, (s'.sfid ref).owner = some u → u = t ∧ slot ≠ .free) :
    Held T s' (Function.update f t o) := by
  intro ref' u hlt h hT
  by_cases heq : ref' = ref
  · subst heq
    obtain ⟨rfl, hslot⟩ := href u h
    rwa [Function.update_self, hheld, Function.update_self]
  · rw [hrest ref' heq] at h
    have hf := H ref' u (hnext ref' heq hlt) h hT
    by_cases hu : u = t
    · subst hu
      rwa [Function.update_self, hheld, Function.update_of_ne heq]
    · rwa [Function.update_of_ne hu]

theorem start (H : Held T s f) (op : Op) (ht : f t = Ghost.idle) :
    Held T (start s t op) (Function.update f t (Ghost.begin op)) := by
  refine H.frame (fun _ => rfl) rfl fun ref h => absurd ?_ h
  rw [ht]
  rfl

theorem step (H : Held T s f) (h : exec s t c e = some (r, s')) (hpost : (f t).post c r o) :
    Held T s' (Function.update f t o) := by
  cases c with
  | load fid =>
      cases h
      cases hpost
      exact H.frame (fun _ => rfl) rfl fun _ => id
  | storeNew fid =>
      rcases exec_storeNew h with ⟨rfl, rfl⟩ | ⟨-, rfl, rfl⟩
      · cases hpost
        exact H.frame (fun _ => rfl) rfl fun _ => id
      · obtain ⟨-, rfl⟩ := hpost
        refine H.change (.live none) (fun _ hne => s.bindNew_sfid_of_ne t fid hne) ?_
          rfl ?_
        · exact fun ref' hne hlt => Nat.lt_of_le_of_ne (Nat.le_of_lt_succ hlt) hne
        · intro u hu
          cases (congrArg SFid.owner (s.bindNew_sfid_next t fid)).symm.trans hu
          exact ⟨rfl, by rintro ⟨⟩⟩
  | loadAndDelete fid =>
      rcases exec_loadAndDelete h with ⟨rfl, rfl⟩ | ⟨ref, -, rfl, rfl⟩
      · cases hpost
        exact H.frame (fun _ => rfl) rfl fun _ => id
      · cases hpost
        exact H.frame (fun _ => rfl) rfl fun _ => id
  | delete fid =>
      cases h
      cases hpost
      exact H.frame (fun _ => rfl) rfl fun _ => id
  | lock ref =>
      obtain ⟨-, rfl⟩ := exec_lock h
      obtain ⟨-, ent, rfl⟩ := hpost
      refine H.change (.live ent) (fun _ hne => s.modify_sfid_of_ne _ hne)
        (fun _ _ => id) rfl ?_
      intro u hu
      rw [Store.modify_sfid_self] at hu
      cases hu
      exact ⟨rfl, by rintro ⟨⟩⟩
  | unlock ref =>
      obtain rfl := exec_unlock h
      cases hpost
      refine H.change .free (fun _ hne => s.modify_sfid_of_ne _ hne)
        (fun _ _ => id) rfl ?_
      intro u hu
      rw [Store.modify_sfid_self] at hu
      cases hu
  | getEnt ref =>
      cases h
      obtain ⟨-, rfl⟩ := hpost
      exact H.frame (fun _ => rfl) rfl fun _ => id
  | setEnt ref ent =>
      cases h
      have hheld : ∀ slot, slot ≠ Slot.free →
          ∀ ref', (f t).held ref' ≠ .free → Function.update (f t).held ref slot ref' ≠ .free := by
        intro slot hslot ref' hf
        by_cases heq : ref' = ref
        · subst heq
          rwa [Function.update_self]
        · rwa [Function.update_of_ne heq]
      cases ent with
      | none =>
          cases hpost
          exact H.frame (s.modify_field SFid.owner ref fun _ => rfl) rfl
            (hheld (.live none) (by rintro ⟨⟩))
      | some d =>
          cases hpost
          exact H.frame (s.modify_field SFid.owner ref fun _ => rfl) rfl
            (hheld (.live (some d)) (by rintro ⟨⟩))
  | getFile ref =>
      cases h
      cases hpost
      exact H.frame (fun _ => rfl) rfl fun _ => id
  | setFile ref file =>
      cases h
      cases hpost
      exact H.frame (s.modify_field SFid.owner ref fun _ => rfl) rfl fun _ => id
  | getMode ref =>
      cases h
      cases hpost
      exact H.frame (fun _ => rfl) rfl fun _ => id
  | setMode ref mode =>
      cases h
      cases hpost
      exact H.frame (s.modify_field SFid.owner ref fun _ => rfl) rfl fun _ => id
  | enter c =>
      cases h
      cases hpost
      refine H.frame (fun _ => rfl) rfl fun ref hf => ?_
      simp only [Ghost.enter]
      split
      · rintro ⟨⟩
      · exact hf
  | leave c =>
      cases h
      cases hpost
      exact H.frame (fun _ => rfl) rfl fun _ => id

end Held

/-! ## The invariant of a thread that runs alone -/

/-- Events are never dropped from the log. -/
theorem exec_log (h : exec s t c e = some (r, s')) : s.log ⊆ s'.log := by
  cases c with
  | storeNew fid =>
      rcases exec_storeNew h with ⟨-, rfl⟩ | ⟨-, -, rfl⟩
      · exact fun _ => id
      · exact List.subset_append_left ..
  | loadAndDelete fid =>
      rcases exec_loadAndDelete h with ⟨-, rfl⟩ | ⟨ref, -, -, rfl⟩
      · exact fun _ => id
      · exact List.subset_append_left ..
  | lock ref =>
      obtain ⟨-, rfl⟩ := exec_lock h
      exact fun _ => id
  | unlock ref =>
      obtain rfl := exec_unlock h
      exact fun _ => id
  | delete fid | enter c | leave c =>
      cases h
      exact List.subset_append_left ..
  | load fid | getEnt ref | setEnt ref ent | getFile ref | setFile ref file | getMode ref
  | setMode ref mode =>
      cases h
      exact fun _ => id

/-- The ghost values when only thread `t` runs. -/
def only (t : Nat) (o : Ghost) : Nat → Ghost := Function.update (fun _ => Ghost.idle) t o

structure Alone (T : Nat → Prop) (t : Nat) (op : Op) (s : Store) (o : Ghost) : Prop where
  invoked : .invoked t op ∈ s.log
  locks : Locks s (only t o)
  records : Records s (only t o)
  held : Held T s (only t o)

namespace Alone

variable {T : Nat → Prop} {op : Op}

theorem begin (calls : Nat) (op : Op)
    (h : ∀ ref u, ref < tbl.next → (tbl.sfid ref).owner = some u → ¬ T u) :
    Alone T t op (start { tbl with calls, log := [] } t op) (Ghost.begin op) := by
  have H : Held T { tbl with calls, log := [] } fun _ => Ghost.idle :=
    fun ref u hlt howner hT => absurd hT (h ref u hlt howner)
  exact ⟨List.mem_singleton.mpr rfl, (Locks.idle _).start op rfl, (Records.init _ rfl).start op rfl,
    H.start op rfl⟩

theorem step (A : Alone T t op s o) (hpre : o.pre c) (h : exec s t c e = some (r, s')) :
    ∃ o', o.post c r o' ∧ Alone T t op s' o' := by
  have ho : only t o t = o := Function.update_self ..
  have hpre' : (only t o t).pre c := by rwa [ho]
  obtain ⟨o', hpost, hlocks⟩ := A.locks.step hpre' h
  have hrecords := A.records.step hpre' h hpost
  have hheld := A.held.step h hpost
  rw [only, Function.update_idem] at hlocks hrecords hheld
  rw [ho] at hpost
  exact ⟨o', hpost, exec_log h A.invoked, hlocks, hrecords, hheld⟩

/-- What a program comes to that runs alone. -/
theorem run (A : Alone T t op s o) {α : Type} {Q : α → Ghost → Prop} {p : M α} (h : Keeps Q p o)
    (env : Nat → Env) (n : Nat) :
    (Conc.run exec t env p s n).Meets (fun a s' => ∃ o', Q a o' ∧ Alone T t op s' o')
      (fun c s' => ∃ o', Ghost.pre o' c ∧ Alone T t op s' o') :=
  Safe.run (fun A hpre hexec => A.step hpre hexec) h A n

end Alone

/-! ## What an operation leaves locked -/

def Table.Unlocked (tbl : Table) : Prop := ∀ ref, ref < tbl.next → (tbl.sfid ref).owner = none

/-- No `SFid` that can be reached through `refs` is locked. -/
def Table.NoneLocked (tbl : Table) : Prop :=
  ∀ fid ref, tbl.refs fid = some ref → (tbl.sfid ref).owner = none

/-- An `Attach` that looks up an `afid` bound to a linked `SFid` without a
`File`. -/
def Op.Leaks (tbl : Table) : Op → Prop
  | attach _ afid _ _ => afid ≠ noFid ∧ ∃ ref, tbl.refs afid = some ref ∧
      (tbl.sfid ref).ent ≠ none ∧ (tbl.sfid ref).file = none
  | _ => False

theorem Op.Leaks.mayLeak {op : Op} (h : op.Leaks tbl) : op.mayLeak := by
  cases op with
  | attach fid afid uname aname => exact h.1
  | _ => exact h

theorem Table.Unlocked.noneLocked (h : tbl.Unlocked) : tbl.NoneLocked :=
  fun _ ref href => h ref (tbl.bound href)

theorem Alone.noneLocked {op : Op} (A : Alone (fun _ => True) t op s o) (h : o.Released) :
    s.toTable.NoneLocked := by
  intro fid ref href
  cases howner : (s.sfid ref).owner with
  | none => rfl
  | some u =>
      refine absurd ?_ (A.held ref u (s.bound href) howner trivial)
      by_cases hu : u = t
      · subst hu
        rw [only, Function.update_self]
        exact h ref
      · rw [only, Function.update_of_ne hu]
        rfl

theorem Alone.begin_unlocked (h : tbl.Unlocked) (calls : Nat) (op : Op) :
    Alone (fun _ => True) t op (start { tbl with calls, log := [] } t op) (Ghost.begin op) := by
  refine Alone.begin calls op fun ref u hlt howner => ?_
  rw [h ref hlt] at howner
  cases howner

/-- `Attach` with an `afid`, on a table with nothing locked. -/
theorem attach_noneLocked_iff (htbl : tbl.Unlocked) {calls : Nat} {afid : Fid}
    {uname aname : Bytes} (hafid : afid ≠ noFid) {r : Ret}
    (hrun : runAlone tbl calls t env (.attach fid afid uname aname) = .returned r s n) :
    s.toTable.NoneLocked ↔ ¬ (Op.attach fid afid uname aname).Leaks tbl := by
  let op := Op.attach fid afid uname aname
  let s₀ : Store := start { tbl with calls, log := [] } t op
  have A : Alone (fun _ => True) t op s₀ (Ghost.begin op) := Alone.begin_unlocked htbl calls op
  have hrun : run exec t env (attach fid afid uname aname) s₀ 0 = .returned r s n := hrun
  rw [attach, if_neg hafid] at hrun
  -- where the lookup fails, nothing has changed
  have hfail : Unavailable s₀ afid → ¬ op.Leaks tbl →
      (s.toTable.NoneLocked ↔ ¬ op.Leaks tbl) := by
    intro hun hleak
    obtain ⟨n', hget⟩ := run_getRef_unavailable t env 0 hun
    rw [run_bind_returned hget] at hrun
    rw [← (Outcome.returned.inj hrun).2.1]
    exact ⟨fun _ => hleak, fun _ => htbl.noneLocked⟩
  cases href : tbl.refs afid with
  | none =>
      refine hfail (Or.inr (Or.inl href)) ?_
      rintro ⟨-, ref, href', -⟩
      cases href.symm.trans href'
  | some ref =>
      have howner : (s₀.sfid ref).owner = none := htbl ref (tbl.bound href)
      cases hent : (tbl.sfid ref).ent with
      | none =>
          refine hfail (Or.inr (Or.inr ⟨ref, href, howner, hent⟩)) ?_
          rintro ⟨-, ref', href', hent', -⟩
          cases href.symm.trans href'
          exact hent' hent
      | some d =>
          have hget : run exec t env (getRef afid) s₀ 0 = .returned (.ok ref) (s₀.lock t ref) 3 :=
            run_getRef_ok hafid href howner hent
          have hlooked := A.run (getRef_keeps afid (Ghost.At.begin op)) env 0
          rw [hget] at hlooked
          obtain ⟨o₁, ⟨d', a⟩, A₁⟩ := hlooked
          rw [run_bind_returned hget] at hrun
          have hfile : ((s₀.lock t ref).sfid ref).file = (tbl.sfid ref).file := by
            rw [Store.lock_sfid_self]
            rfl
          obtain ⟨o₂, hpost, A₂⟩ := A₁.step (c := .getFile ref) (e := env 3)
            ⟨a.calling, d', a.slot (Function.update_self ..)⟩ rfl
          cases hpost
          replace hrun := (run_then rfl).symm.trans hrun
          rw [hfile] at hrun A₂
          cases hf : (tbl.sfid ref).file with
          | none =>
              rw [hf] at hrun
              cases hrun
              refine iff_of_false (fun hnone => ?_) (fun hleak => hleak ⟨hafid, ref, href, ?_, hf⟩)
              · have hlocked := hnone afid ref href
                rw [Store.lock_sfid_self] at hlocked
                cases hlocked
              · rw [hent]
                exact nofun
          | some g =>
              rw [hf] at hrun A₂
              have hdone := A₂.run (attachFile_keeps rfl (a.saw (some g)) fid uname aname) env 4
              rw [hrun] at hdone
              obtain ⟨o₃, hreleased, A₃⟩ := hdone
              refine iff_of_true (A₃.noneLocked hreleased) ?_
              rintro ⟨-, ref', href', -, hnone⟩
              cases href.symm.trans href'
              cases hf.symm.trans hnone

/-- An operation that starts with nothing locked and returns leaves nothing
locked that can be reached, unless it is an `Attach` with an unopened fid as
its `afid`. -/
theorem released_iff {tbl : Table} (htbl : tbl.Unlocked) {calls : Nat} {op : Op} {r : Ret}
    (hrun : runAlone tbl calls t env op = .returned r s n) :
    s.toTable.NoneLocked ↔ ¬ op.Leaks tbl := by
  by_cases hm : op.mayLeak
  · cases op with
    | attach fid afid uname aname => exact attach_noneLocked_iff htbl hm hrun
    | _ => exact hm.elim
  · have hdone := (Alone.begin_unlocked (t := t) htbl calls op).run op.prog_keeps env 0
    rw [runAlone] at hrun
    rw [hrun] at hdone
    obtain ⟨o, hreleased, A⟩ := hdone
    exact iff_of_true (A.noneLocked (hreleased.resolve_right hm)) fun h => hm h.mayLeak

/-- A table with fid 1 bound to an `SFid` that is linked and not open. -/
def oneFid : Table where
  refs := Function.update (fun _ => none) 1 (some 0)
  sfid _ := ⟨none, some 0, none, 0⟩
  next := 1
  bound := by
    intro fid ref h
    rw [Function.update_apply] at h
    split at h
    · cases h
      exact Nat.zero_lt_one
    · cases h

theorem released_iff_stat :
    ∃ r s n, runAlone oneFid 1 0 (fun _ => agreeable) (.stat 1) = .returned r s n ∧
      (s.toTable.NoneLocked ↔ ¬ (Op.stat 1).Leaks oneFid) := by
  have hrun : ∃ r s n, runAlone oneFid 1 0 (fun _ => agreeable) (.stat 1) = .returned r s n :=
    ⟨_, _, _, rfl⟩
  obtain ⟨r, s, n, hrun⟩ := hrun
  exact ⟨r, s, n, hrun, released_iff (fun _ _ => rfl) hrun⟩

/-- `Attach` with fid 1 as its `afid` fails, and leaves fid 1 locked. -/
theorem afid_left_locked :
    oneFid.Unlocked ∧ ∃ s n, runAlone oneFid 1 0 (fun _ => agreeable) (.attach 2 1 [] []) =
      .returned (.qid noQid (some .unknownfid)) s n ∧ ¬ s.toTable.NoneLocked := by
  refine ⟨fun _ _ => rfl, _, _, rfl, fun h => ?_⟩
  cases h 1 0 rfl

/-! ## Locking a mutex twice -/

/-- The command locks a mutex that thread `t` has locked. -/
def Cmd.locksOwn (t : Nat) (s : Store) : Cmd → Prop
  | lock ref => (s.sfid ref).owner = some t
  | _ => False

/-- The operation waits for a mutex that it has locked itself. -/
def SelfLocks {α : Type} (t : Nat) : Outcome Cmd α Store → Prop
  | .blocked c s => c.locksOwn t s
  | _ => False

/-- An `OpenDir` or `Open` of thread `t` has failed. -/
def OpenFailed (t : Nat) (log : List Event) : Prop :=
  ∃ c r, .leave t c r ∈ log ∧ c.openFails r

/-- Only a `Create` that could not open what it has made waits for itself. -/
theorem create_of_selfLock {T : Nat → Prop} {f : Nat → Ghost} (L : Locks s f) (R : Records s f)
    (H : Held T s f) (ht : T t) {ref : Nat} (hpre : (f t).pre (.lock ref))
    (howner : (s.sfid ref).owner = some t) :
    ∃ op, .invoked t op ∈ s.log ∧ op.isCreate ∧ OpenFailed t s.log := by
  have hheld : (f t).held ref ≠ .free := H ref t (L.known t ref hpre.2.1) howner ht
  have hfailed : (f t).failed := hpre.2.2.resolve_left fun hrel => hheld (hrel ref)
  obtain ⟨⟨op, hop, hcreate⟩, hopen⟩ := R.failed t hfailed
  exact ⟨op, (R.op t op).mp hop, hcreate, hopen⟩

/-- An operation that comes to wait for itself is a `Create`. -/
theorem Alone.isCreate_of_selfLocks {op : Op} {α : Type} {x : Outcome Cmd α Store}
    {ret : α → Store → Prop}
    (h : x.Meets ret fun c s => ∃ o, Ghost.pre o c ∧ Alone (· = t) t op s o)
    (hself : SelfLocks t x) : op.isCreate := by
  cases x with
  | returned a s n => exact hself.elim
  | crashed s => exact hself.elim
  | blocked c s =>
      obtain ⟨o, hpre, A⟩ := h
      cases c with
      | lock ref =>
          have ho : only t o t = o := Function.update_self ..
          obtain ⟨op', hop', hcreate, -⟩ := create_of_selfLock A.locks A.records A.held rfl
            (by rwa [ho]) hself
          -- the thread has invoked one operation
          have hop := (A.records.op t op).mpr A.invoked
          cases hop.symm.trans ((A.records.op t op').mpr hop')
          exact hcreate
      | _ => exact hself.elim

/-! ### The rollback of `Create` -/

section Replies

/-- The replies to the calls of `Create`. -/
def Env.qid (env : Env) (d : Nat) : Qid := env (.qid d)

def Env.create (env : Env) (d : Nat) (name : Bytes) (perm : UInt32) (mode : Flag) :
    Bool × Option FileKind × Option Err :=
  env (.create d name perm mode)

def Env.openDir (env : Env) (d : Nat) : Option Err := env (.openDir d)

def Env.open (env : Env) (d : Nat) (mode : Flag) : Option FileKind × Option Err :=
  env (.open d mode)

end Replies

/-- `IsDir`, of a `Dirent` with this `Qid`. -/
def isDirQid (q : Qid) : Bool := q.type &&& qtdir ≠ 0

/-- The replies with which `openEnt` fails, where the first comes at step `n`. -/
def OpenFails (env : Nat → Env) (n d : Nat) (mode : Flag) : Prop :=
  if isDirQid ((env n).qid d) then (env (n + 2)).openDir d ≠ none
  else ∀ kind, (env (n + 2)).open d mode ≠ (some kind, none)

/-- The replies to a `Create` in `d` that makes a directory and cannot open it,
where its own steps begin with `n`.  The new `Dirent` is the handle
`calls + 1`; it is asked for its `Qid` twice. -/
def CannotOpen (calls n : Nat) (env : Nat → Env) (d : Nat) (name : Bytes) (perm : UInt32)
    (mode : Flag) : Prop :=
  isDirQid ((env (n + 2)).qid d) ∧
    (∃ kind, (env (n + 5)).create d name perm mode = (true, some kind, none)) ∧
    isDirQid ((env (n + 7)).qid (calls + 1)) ∧ OpenFails env (n + 9) (calls + 1) mode

/-- A `Create` on this table that makes a directory and cannot open it. -/
def Op.CannotOpen (tbl : Table) (calls : Nat) (env : Nat → Env) : Op → Prop
  | create parent name perm mode =>
      name ≠ lit "." ∧ name ≠ lit ".." ∧ parent ≠ noFid ∧
        ∃ ref d, tbl.refs parent = some ref ∧ (tbl.sfid ref).owner = none ∧
          (tbl.sfid ref).ent = some d ∧ Session.CannotOpen calls 3 env d name perm mode
  | _ => False

/-- The store after a call. -/
def Store.called (s : Store) (t : Nat) (c : Call) (r : c.Res) : Store :=
  (s.record (.enter t c)).answered t c r

section SelfLocks

variable {α β : Type} {ref d : Nat} {f : File} {mode : Flag}

theorem selfLocks_bind_returned {p : M α} {k : α → M β} {a : α} {n' : Nat}
    (hp : run exec t env p s n = .returned a s' n') :
    SelfLocks t (run exec t env (p >>= k) s n) ↔ SelfLocks t (run exec t env (k a) s' n') := by
  rw [run_bind_returned hp]

theorem selfLocks_next {k : c.Res → M α} (hc : exec s t c (env n) = some (r, s')) :
    SelfLocks t (run exec t env (Prog.issue c >>= k) s n) ↔
      SelfLocks t (run exec t env (k r) s' (n + 1)) := by
  rw [run_then hc]

theorem selfLocks_stuck {k : c.Res → M α} (hc : exec s t c (env n) = none) :
    SelfLocks t (run exec t env (Prog.issue c >>= k) s n) ↔ c.locksOwn t s := by
  have hrun : run exec t env (Prog.issue c >>= k) s n = .blocked c s := run_blocked hc
  rw [hrun]
  exact Iff.rfl

theorem selfLocks_ent {k : Nat → M α} (hent : (s.sfid ref).ent = some d) :
    SelfLocks t (run exec t env (ent ref >>= k) s n) ↔
      SelfLocks t (run exec t env (k d) s (n + 1)) := by
  refine (selfLocks_next rfl).trans ?_
  rw [hent]
  exact Iff.rfl

theorem run_call {c : Call} {k : c.Res → M α} {reply : c.Reply} (hreply : env (n + 1) c = reply) :
    run exec t env (call c >>= k) s n = run exec t env (k (c.answer s.calls reply))
      (s.called t c (c.answer s.calls reply)) (n + 2) := by
  subst hreply
  rfl

theorem selfLocks_call {c : Call} {k : c.Res → M α} {reply : c.Reply}
    (hreply : env (n + 1) c = reply) :
    SelfLocks t (run exec t env (call c >>= k) s n) ↔
      SelfLocks t (run exec t env (k (c.answer s.calls reply))
        (s.called t c (c.answer s.calls reply)) (n + 2)) := by
  rw [run_call hreply]

theorem selfLocks_isDir {k : Bool → M α} {q : Qid} (hq : (env (n + 1)).qid d = q) :
    SelfLocks t (run exec t env (isDir d >>= k) s n) ↔
      SelfLocks t (run exec t env (k (isDirQid q)) (s.called t (.qid d) q) (n + 2)) := by
  subst hq
  exact Iff.rfl

theorem selfLocks_deferUnlock {body : M α} :
    SelfLocks t (run exec t env (deferUnlock ref body) s n) ↔
      SelfLocks t (run exec t env body s n) := by
  rw [deferUnlock, run_bind]
  cases run exec t env body s n with
  | returned a s' n' =>
      -- what follows is one `unlock`
      cases hunlock : exec s' t (.unlock ref) (env n') with
      | none => exact selfLocks_stuck hunlock
      | some r => exact selfLocks_next hunlock
  | crashed s' => exact Iff.rfl
  | blocked c s' => exact Iff.rfl

/-- `delRef` locks a mutex that the thread has locked. -/
theorem selfLocks_delRef {remove : Bool} {k : Option Err → M α} (href : s.refs fid = some ref)
    (howner : (s.sfid ref).owner = some t) :
    SelfLocks t (run exec t env (delRef fid remove >>= k) s n) := by
  have htake : exec s t (.loadAndDelete fid) (env n) =
      some (some ref, (s.unbind fid).record (.took t fid ref)) := by
    simp only [exec, href]
    rfl
  have hdel : run exec t env (delRef fid remove) s n =
      .blocked (.lock ref) ((s.unbind fid).record (.took t fid ref)) :=
    (run_then htake).trans (run_blocked (exec_lock_taken howner))
  rw [run_bind, hdel]
  exact howner

theorem not_selfLocks_replaceEnt :
    ¬ SelfLocks t (run exec t env (replaceEnt ref d f mode) s n) := by
  refine mt (selfLocks_next rfl).mp (mt (selfLocks_next rfl).mp (mt (selfLocks_next rfl).mp
    (mt (selfLocks_next rfl).mp
      (mt (selfLocks_next rfl).mp (mt (selfLocks_ent (d := d) ?_).mp ?_)))))
  · simp only [Store.modify_sfid_self]
  · refine mt (selfLocks_call (c := .qid d) rfl).mp ?_
    unfold ioUnit
    split
    · exact id
    · exact id

theorem run_openEnt (env : Nat → Env) (n d : Nat) (mode : Flag) :
    ∃ x s', run exec t env (openEnt (pure d) mode) s n = .returned x s' (n + 4) ∧
      s'.toTable = s.toTable ∧ ((∀ f, x ≠ .ok f) ↔ OpenFails env (n + 1) d mode) := by
  have hget : run exec t env (pure d : M Nat) s n = .returned d s n := rfl
  have hdir : run exec t env (isDir d) s n = .returned (isDirQid ((env (n + 1)).qid d))
      (s.called t (.qid d) ((env (n + 1)).qid d)) (n + 2) := rfl
  rw [openEnt, run_bind_returned hget, run_bind_returned hdir, OpenFails]
  cases isDirQid ((env (n + 1)).qid d) with
  | true =>
      rw [if_pos rfl, if_pos rfl]
      cases hopen : (env (n + 3)).openDir d with
      | none =>
          refine ⟨.ok ⟨s.calls + 1, .readdir⟩, _, run_call (c := .openDir d) hopen, rfl, ?_⟩
          exact iff_of_false (fun h => h _ rfl) fun h => h rfl
      | some err =>
          exact ⟨.error err, _, run_call (c := .openDir d) hopen, rfl, iff_of_true nofun nofun⟩
  | false =>
      rw [if_neg Bool.false_ne_true, if_neg Bool.false_ne_true]
      obtain ⟨⟨kind, err⟩, hopen⟩ : ∃ r, (env (n + 3)).open d mode = r := ⟨_, rfl⟩
      refine ⟨ensureNonNil (kind.map (File.mk (s.calls + 1))) err, _,
        run_call (c := .open d mode) hopen, rfl, ?_⟩
      show _ ↔ ∀ kind', (env (n + 3)).open d mode ≠ (some kind', none)
      rw [hopen]
      cases err with
      | some err => exact iff_of_true nofun nofun
      | none =>
          cases kind with
          | none => exact iff_of_true nofun nofun
          | some kind => exact iff_of_false (fun h => h _ rfl) fun h => h kind rfl

theorem selfLocks_openEnt_iff {k : Except Err File → M α}
    (herr : ∀ err s' n', s'.toTable = s.toTable →
      SelfLocks t (run exec t env (k (.error err)) s' n'))
    (hok : ∀ f s' n', ¬ SelfLocks t (run exec t env (k (.ok f)) s' n')) :
    SelfLocks t (run exec t env (openEnt (pure d) mode >>= k) s n) ↔
      OpenFails env (n + 1) d mode := by
  obtain ⟨x, s', hopen, htbl, hx⟩ := run_openEnt (t := t) (s := s) env n d mode
  refine (selfLocks_bind_returned hopen).trans ?_
  cases x with
  | error err => exact iff_of_true (herr err s' _ htbl) (hx.mp nofun)
  | ok f => exact iff_of_false (hok f s' _) fun h => hx.mpr h f rfl

theorem selfLocks_createLocked_iff {parent : Fid} {name : Bytes} {perm : UInt32}
    (href : s.refs parent = some ref) (howner : (s.sfid ref).owner = some t)
    (hent : (s.sfid ref).ent = some d) :
    SelfLocks t (run exec t env (createLocked ref parent name perm mode) s n) ↔
      CannotOpen s.calls n env d name perm mode := by
  rw [CannotOpen]
  generalize hq₁ : (env (n + 2)).qid d = q₁
  generalize hr : (env (n + 5)).create d name perm mode = r
  generalize hq₂ : (env (n + 7)).qid (s.calls + 1) = q₂
  refine (selfLocks_ent hent).trans ((selfLocks_isDir hq₁).trans ?_)
  cases isDirQid q₁ with
  | false => exact iff_of_false id fun h => nomatch h.1
  | true =>
      refine (selfLocks_ent (d := d) (by exact hent)).trans ?_
      refine (selfLocks_call (c := .create d name perm mode) hr).trans ?_
      obtain ⟨nonNil, kind, err⟩ := r
      -- without an entry and a file there is nothing to open
      have hfail : (∀ kind', (nonNil, kind, err) ≠ (true, some kind', none)) → ∀ P : Prop,
          ¬ (true = true ∧ (∃ kind', (nonNil, kind, err) = (true, some kind', none)) ∧ P) :=
        fun h P ⟨_, ⟨kind', hkind⟩, _⟩ => h kind' hkind
      cases err with
      | some err => exact iff_of_false id (hfail nofun _)
      | none =>
          cases nonNil with
          | false => exact iff_of_false id (hfail nofun _)
          | true =>
              cases kind with
              | none => exact iff_of_false id (hfail nofun _)
              | some kind =>
                  refine (selfLocks_isDir hq₂).trans ?_
                  cases isDirQid q₂ with
                  | false =>
                      exact iff_of_false not_selfLocks_replaceEnt fun h => nomatch h.2.2.1
                  | true =>
                      refine (selfLocks_openEnt_iff ?_ fun f _ _ =>
                        not_selfLocks_replaceEnt).trans ?_
                      · intro err s' n' htbl
                        -- `delRef` locks the parent, which is locked already
                        exact selfLocks_delRef (by rw [htbl]; exact href)
                          (by rw [htbl]; exact howner)
                      · exact ⟨fun h => ⟨rfl, ⟨kind, rfl⟩, rfl, h⟩, fun h => h.2.2.2⟩

end SelfLocks

/-- `Create`, where its own thread has locked nothing. -/
theorem selfLocks_create_iff (hown : ∀ ref, ref < s.next → (s.sfid ref).owner ≠ some t)
    (parent : Fid) (name : Bytes) (perm : UInt32) (mode : Flag) :
    SelfLocks t (run exec t env (create parent name perm mode) s 0) ↔
      (Op.create parent name perm mode).CannotOpen s.toTable s.calls env := by
  rw [create]
  split
  · rename_i hname
    exact iff_of_false id fun h => hname.elim h.1 h.2.1
  rename_i hname
  by_cases hun : Unavailable s parent
  · obtain ⟨n', hget⟩ := run_getRef_unavailable t env 0 hun
    refine (selfLocks_bind_returned hget).trans (iff_of_false id ?_)
    rintro ⟨-, -, hfid, ref, d, href, -, hent, -⟩
    rcases hun with h | h | ⟨ref', href', -, hnone⟩
    · exact hfid h
    · cases h.symm.trans href
    · cases href'.symm.trans href
      cases hnone.symm.trans hent
  · have hfid : parent ≠ noFid := fun h => hun (Or.inl h)
    obtain ⟨ref, href⟩ := Option.ne_none_iff_exists'.mp fun h => hun (Or.inr (Or.inl h))
    cases howner : (s.sfid ref).owner with
    | some u =>
        rw [withRef, run_bind, run_getRef_taken hfid href howner]
        refine iff_of_false (hown ref (s.bound href)) ?_
        rintro ⟨-, -, -, ref', d, href', hfree, -⟩
        cases href.symm.trans href'
        cases howner.symm.trans hfree
    | none =>
        obtain ⟨d, hent⟩ := Option.ne_none_iff_exists'.mp fun h =>
          hun (Or.inr (Or.inr ⟨ref, href, howner, h⟩))
        refine (selfLocks_bind_returned (run_getRef_ok hfid href howner hent)).trans ?_
        have href' : (s.lock t ref).refs parent = some ref := href
        refine selfLocks_deferUnlock.trans
          ((selfLocks_createLocked_iff (d := d) href' ?_ ?_).trans ?_)
        · rw [Store.lock_sfid_self]
        · rw [Store.lock_sfid_self]
          exact hent
        · constructor
          · intro h
            exact ⟨fun h' => hname (Or.inl h'), fun h' => hname (Or.inr h'), hfid, ref, d, href,
              howner, hent, h⟩
          · rintro ⟨-, -, -, ref', d', href', -, hent', h⟩
            cases href.symm.trans href'
            cases hent.symm.trans hent'
            exact h

/-- On a table with no mutex locked by its own thread, an operation waits for
itself if it is a `Create` that makes a directory and cannot open it; in no
other case. -/
theorem selfLocks_iff {tbl : Table} (htbl : ∀ ref, ref < tbl.next → (tbl.sfid ref).owner ≠ some t)
    (calls : Nat) (env : Nat → Env) (op : Op) :
    SelfLocks t (runAlone tbl calls t env op) ↔ op.CannotOpen tbl calls env := by
  have A : Alone (· = t) t op (start { tbl with calls, log := [] } t op) (Ghost.begin op) := by
    refine Alone.begin calls op ?_
    rintro ref u hlt howner rfl
    exact htbl ref hlt howner
  have hcreate := Alone.isCreate_of_selfLocks (A.run op.prog_safe env 0)
  cases op with
  | create parent name perm mode => exact selfLocks_create_iff htbl parent name perm mode
  | _ => exact iff_of_false (fun h => nomatch hcreate h) id

/-- A file system that cannot open a directory. -/
def unreadable : Env
  | .openDir _ => some .perm
  | c => agreeable c

/-- `Create` makes a directory and cannot open it; it waits for the parent,
which it has locked. -/
theorem create_selfLocks :
    oneFid.Unlocked ∧ SelfLocks 0
      (runAlone oneFid 1 0 (fun _ => unreadable) (.create 1 [97] 0 0)) :=
  ⟨fun _ _ => rfl, rfl⟩

theorem selfLocks_iff_create :
    (∀ ref, ref < oneFid.next → (oneFid.sfid ref).owner ≠ some 0) ∧
      (SelfLocks 0 (runAlone oneFid 1 0 (fun _ => agreeable) (.create 1 [97] 0 0)) ↔
        (Op.create 1 [97] 0 0).CannotOpen oneFid 1 fun _ => agreeable) :=
  have h : ∀ ref, ref < oneFid.next → (oneFid.sfid ref).owner ≠ some 0 :=
    fun _ _ => (Option.some_ne_none 0).symm
  ⟨h, selfLocks_iff h 1 (fun _ => agreeable) (.create 1 [97] 0 0)⟩

/-! ### In any interleaving -/

/-- Nothing is asked of the schedule or of the file system. -/
def ownership : Protocol exec start Op.prog Ghost where
  idle := Ghost.idle
  begin := Ghost.begin
  pre := Ghost.pre
  post := Ghost.post
  inv s f := Locks s f ∧ Records s f ∧ Held (fun _ => True) s f
  guard _ _ _ _ := True
  start_inv op h ht := ⟨h.1.start op ht, h.2.1.start op ht, h.2.2.start op ht⟩
  exec_inv h hpre _ hexec := by
    obtain ⟨o, hpost, hlocks⟩ := h.1.step hpre hexec
    exact ⟨o, hpost, hlocks, h.2.1.step hpre hexec hpost, h.2.2.step hexec hpost⟩
  safe := Op.prog_safe

/-- In every run of a session, a thread whose next step is to lock a mutex it
has locked itself is in a `Create` that could not open what it has made. -/
theorem create_of_locksOwn (acts : List (Sched Op Env)) {s : State}
    (hrun : Conc.exec step initial acts = some s) {t : Nat} {k : c.Res → M Ret}
    (ht : s.threads[t]? = some (.cmd c k)) (hown : c.locksOwn t s.store) :
    ∃ op, .invoked t op ∈ s.store.log ∧ op.isCreate ∧ OpenFailed t s.store.log := by
  have hfree : Held (fun _ => True) init fun _ => Ghost.idle :=
    fun ref u hlt => absurd hlt (Nat.not_lt_zero ref)
  obtain ⟨f, hf⟩ := ownership.sound_of_forall (fun _ _ _ _ => trivial)
    ⟨Locks.idle init, Records.init init rfl, hfree⟩ acts hrun
  have hpre : (f t).pre c := (hf.safe t _ ht).1
  cases c with
  | lock ref => exact create_of_selfLock hf.inv.1 hf.inv.2.1 hf.inv.2.2 trivial hpre hown
  | _ => exact hown.elim

end P9p.Session
