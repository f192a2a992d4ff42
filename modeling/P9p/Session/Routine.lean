/-
# The routine commands of an operation

Most of what an operation of the session does concerns its own `SFid`s and the
`Dirent`s behind them.  A few of its commands say more: those by which it waits
for another operation, is let in, or reaches a `File`:

    lock
    enter and leave of FileSys.Attach and AuthFile.Success
    enter of File.Read and File.Write

All others are routine.  The functions that the operations are made of are
listed here with their routine parts, so that a property of the few commands is
proved by looking at the few functions that issue them.
-/
import P9p.Session

namespace P9p.Session

open Conc

def Cmd.isRoutine : Cmd → Bool
  | .lock _ | .enter (.attach _ _ _) | .leave (.attach _ _ _) | .enter (.success _)
  | .leave (.success _) | .enter (.read _ _ _) | .enter (.write _ _ _) => false
  | _ => true

/-- The program issues only routine commands. -/
abbrev Routine {α : Type} (p : M α) : Prop := p.Only fun c => c.isRoutine

variable {α : Type}

theorem issue_routine {c : Cmd} (h : c.isRoutine) : Routine (issue c) := ⟨h, fun _ => trivial⟩

theorem call_routine {c : Call} (henter : (Cmd.enter c).isRoutine)
    (hleave : (Cmd.leave c).isRoutine) : Routine (call c) :=
  (issue_routine henter).bind fun _ => issue_routine hleave

theorem deferUnlock_routine {ref : Nat} {body : M α} (h : Routine body) :
    Routine (deferUnlock ref body) :=
  h.bind fun _ => (issue_routine rfl).bind fun _ => trivial

theorem ent_routine (ref : Nat) : Routine (ent ref) :=
  (issue_routine rfl).bind fun
    | none => trivial
    | some _ => trivial

theorem file_routine (ref : Nat) : Routine (file ref) :=
  (issue_routine rfl).bind fun
    | none => trivial
    | some _ => trivial

theorem isDir_routine (d : Nat) : Routine (isDir d) := (call_routine rfl rfl).bind fun _ => trivial

theorem ioUnit_routine (f : File) : Routine (ioUnit f) := by
  unfold ioUnit
  split
  · trivial
  · exact (call_routine rfl rfl).bind fun _ => trivial

theorem newRef_routine (fid : Fid) : Routine (newRef fid) := by
  unfold newRef
  split
  · trivial
  · refine (issue_routine rfl).bind ?_
    rintro (_ | ref)
    · trivial
    · trivial

theorem withNewRef_routine {fid : Fid} {fail : Err → Ret} {body : Nat → M Ret}
    (h : ∀ ref, Routine (body ref)) : Routine (withNewRef fid fail body) := by
  refine (newRef_routine fid).bind ?_
  rintro (err | ref)
  · trivial
  · exact deferUnlock_routine (h ref)

theorem auth_routine (afid : Fid) (uname aname : Bytes) : Routine (auth afid uname aname) := by
  unfold auth
  split
  · trivial
  · refine (call_routine rfl rfl).bind fun required => ?_
    split
    · trivial
    · refine withNewRef_routine fun aref => (call_routine rfl rfl).bind ?_
      rintro ⟨afile, _ | err⟩
      · exact (issue_routine rfl).bind fun _ => trivial
      · exact (issue_routine rfl).bind fun _ => trivial

theorem walkEnt_routine (ref : Nat) (same : Bool) (names : List Bytes) :
    Routine (walkEnt ref same names) := by
  unfold walkEnt
  split
  · split
    · trivial
    · refine (ent_routine ref).bind fun d => (call_routine rfl rfl).bind ?_
      rintro ⟨qids, _ | d', _ | err⟩ <;> trivial
  · refine (ent_routine ref).bind fun d => (isDir_routine d).bind fun dir => ?_
    split
    · refine (ent_routine ref).bind fun d => (call_routine rfl rfl).bind ?_
      rintro ⟨qids, e, err⟩
      dsimp only
      cases ensureNonNil e err with
      | error err => trivial
      | ok d =>
          dsimp only
          split <;> trivial
    · trivial

theorem walkLocked_routine (ref : Nat) (newref : Option Nat) (names : List Bytes) :
    Routine (walkLocked ref newref names) := by
  refine (walkEnt_routine ref newref.isNone names).bind ?_
  rintro (r | ⟨qids, d⟩)
  · trivial
  · show Routine (if qids.length ≠ names.length then _ else _)
    split
    · trivial
    · cases newref with
      | none =>
          exact (ent_routine ref).bind fun _ => (call_routine rfl rfl).bind fun _ =>
            (issue_routine rfl).bind fun _ => trivial
      | some newref =>
          exact (issue_routine rfl).bind fun _ => (issue_routine rfl).bind fun _ => trivial

theorem walkCleanup_routine (newfid : Fid) (ref : Nat) (newref : Option Nat) :
    Routine (walkCleanup newfid ref newref) := by
  cases newref with
  | none => exact issue_routine rfl
  | some newref =>
      exact (issue_routine rfl).bind fun _ => (issue_routine rfl).bind fun _ => issue_routine rfl

theorem walkRef_routine (fid newfid : Fid) : Routine (walkRef fid newfid) := by
  unfold walkRef
  split
  · trivial
  · refine (newRef_routine newfid).bind ?_
    rintro (err | newref)
    · trivial
    · trivial

theorem openEnt_routine {getEnt : M Nat} (hget : Routine getEnt) (mode : Flag) :
    Routine (openEnt getEnt mode) := by
  refine hget.bind fun d => (isDir_routine d).bind ?_
  rintro (_ | _)
  · exact hget.bind fun _ => (call_routine rfl rfl).bind fun _ => trivial
  · refine hget.bind fun _ => (call_routine rfl rfl).bind ?_
    rintro ⟨dirs, _ | err⟩
    · trivial
    · trivial

theorem openLocked_routine (ref : Nat) (mode : Flag) : Routine (openLocked ref mode) := by
  refine (issue_routine rfl).bind ?_
  rintro (_ | f)
  · refine (openEnt_routine (ent_routine ref) mode).bind ?_
    rintro (err | f)
    · trivial
    · exact (issue_routine rfl).bind fun _ => (issue_routine rfl).bind fun _ => trivial
  · trivial

/-- `Open`, once its fid is locked. -/
theorem open_routine (ref : Nat) (mode : Flag) : Routine (do
    match ← openLocked ref mode with
    | some err => return Ret.opened noQid 0 (some err)
    | none =>
        let q ← call (.qid (← ent ref))
        let n ← ioUnit (← file ref)
        return .opened q n none) := by
  refine (openLocked_routine ref mode).bind ?_
  rintro (_ | err)
  · exact (ent_routine ref).bind fun _ => (call_routine rfl rfl).bind fun _ =>
      (file_routine ref).bind fun f => (ioUnit_routine f).bind fun _ => trivial
  · trivial

theorem replaceEnt_routine (ref d : Nat) (f : File) (mode : Flag) :
    Routine (replaceEnt ref d f mode) :=
  (issue_routine rfl).bind fun _ => (issue_routine rfl).bind fun _ =>
  (issue_routine rfl).bind fun _ =>
    (issue_routine rfl).bind fun _ => (issue_routine rfl).bind fun _ =>
    (ent_routine ref).bind fun _ =>
      (call_routine rfl rfl).bind fun _ => (ioUnit_routine f).bind fun _ => trivial

theorem delRefAction_routine (ref : Nat) (remove : Bool) : Routine (delRefAction ref remove) := by
  refine (ent_routine ref).bind fun d => ?_
  cases remove with
  | true => exact (call_routine rfl rfl).bind fun _ => (issue_routine rfl).bind fun _ => trivial
  | false => exact (call_routine rfl rfl).bind fun _ => (issue_routine rfl).bind fun _ => trivial

theorem sweep_routine (fid : Fid) : Routine (sweep fid) := by
  refine (issue_routine rfl).bind ?_
  rintro (_ | ref)
  · trivial
  · refine (issue_routine rfl).bind ?_
    rintro (_ | d)
    · trivial
    · exact (delRefAction_routine ref false).bind fun _ => trivial

theorem stop_routine (err : Option Err) (fids : List Fid) : Routine (stop err fids) := by
  induction fids with
  | nil => trivial
  | cons fid fids ih => exact (sweep_routine fid).bind fun _ => ih

end P9p.Session
