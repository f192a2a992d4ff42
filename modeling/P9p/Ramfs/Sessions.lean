/-
# Sessions keep the kinds of nodes apart

Any number of sessions use one server, with one operation after the other.  An
operation that waits for a mutex which nobody will unlock waits for ever; the
others go on.

The session asks for the qid of a `Dirent` before it opens it, and takes the
file that `Create` returns only if it is not a directory.  So whatever is
written, is written to a node that is not a directory, and what is left to go
wrong is `WStat`.

**It does go wrong** (`wstat_root`): `WStat` on the root with a mode that has no
`DMDIR` leaves a directory whose mode denies it.

**Otherwise the kinds agree** (`kinds_agree`), in every run in which `WStat` does
not change that bit.
-/
import P9p.Ramfs.Calls

namespace P9p.Ramfs

open Conc
open Session (World FileSys)

/-! ## The table -/

section Table

variable {i ref : Nat} {x : Option Nat} {w : World Host}

/-- Replace the fields of an `SFid`. -/
abbrev modify (w : World Host) (ref : Nat) (g : Session.SFid → Session.SFid) : World Host :=
  { w with store := w.store.modify ref g }

theorem sfid_modify (g : Session.SFid → Session.SFid) :
    (modify w ref g).store.sfid ref = g (w.store.sfid ref) :=
  Function.update_self ..

theorem sfid_modify_of_ne {ref' : Nat} (h : ref' ≠ ref) (g : Session.SFid → Session.SFid) :
    (modify w ref g).store.sfid ref' = w.store.sfid ref' :=
  Function.update_of_ne h ..

theorem still_modify {g : Session.SFid → Session.SFid} (hent : ∀ f, (g f).ent = f.ent)
    (hfile : ∀ f, (g f).file = f.file) : Still w (modify w ref g) := by
  refine ⟨rfl, rfl, fun ref' => ?_, fun ref' => ?_⟩ <;> by_cases hr : ref' = ref
  · rw [hr, sfid_modify, hent]
  · rw [sfid_modify_of_ne hr]
  · rw [hr, sfid_modify, hfile]
  · rw [sfid_modify_of_ne hr]

theorem Backed.setEnt (h : Backed i (some ref) w) {ent : Option Nat}
    (hd : ∀ d, ent = some d → Spare i (some ref) d w) :
    Backed i none (modify w ref fun f => { f with ent }) := by
  have hother : ∀ {ref'}, ref' ≠ ref → some ref' ≠ some ref :=
    fun hne heq => hne (Option.some.inj heq)
  refine ⟨h.sound, fun r d _ he => ?_, fun r r' d _ _ he he' => ?_, fun r f hf => ?_, h.fresh⟩
  · by_cases hr : r = ref
    · rw [hr, sfid_modify] at he
      exact (hd d he).live
    · rw [sfid_modify_of_ne hr] at he
      exact h.ents r d (hother hr) he
  · by_cases hr : r = ref <;> by_cases hr' : r' = ref
    · exact hr.trans hr'.symm
    · rw [hr, sfid_modify] at he
      rw [sfid_modify_of_ne hr'] at he'
      exact absurd he' ((hd d he).unheld r' (hother hr'))
    · rw [sfid_modify_of_ne hr] at he
      rw [hr', sfid_modify] at he'
      exact absurd he ((hd d he').unheld r (hother hr))
    · rw [sfid_modify_of_ne hr] at he
      rw [sfid_modify_of_ne hr'] at he'
      exact h.lone r r' d (hother hr) (hother hr') he he'
  · have hfile : ((modify w ref fun f => { f with ent }).store.sfid r).file =
        (w.store.sfid r).file := by
      by_cases hr : r = ref
      · rw [hr, sfid_modify]
      · rw [sfid_modify_of_ne hr]
    exact ⟨(h.files r f (hfile ▸ hf)).kind, (h.files r f (hfile ▸ hf)).plain⟩

theorem ent_setFile (w : World Host) (ref : Nat) (file : Option Session.File) (r : Nat) :
    ((modify w ref fun f => { f with file }).store.sfid r).ent = (w.store.sfid r).ent := by
  by_cases hr : r = ref
  · rw [hr, sfid_modify]
  · rw [sfid_modify_of_ne hr]

theorem Backed.setFile (h : Backed i x w) {file : Option Session.File}
    (hf : ∀ f, file = some f → Usable i w f) :
    Backed i x (modify w ref fun f => { f with file }) := by
  have hent := ent_setFile w ref file
  refine ⟨h.sound, fun r d hx he => h.ents r d hx (hent r ▸ he),
    fun r r' d hx hx' he he' => h.lone r r' d hx hx' (hent r ▸ he) (hent r' ▸ he'),
    fun r f hr => ?_, h.fresh⟩
  by_cases href : r = ref
  · rw [href, sfid_modify] at hr
    exact ⟨(hf f hr).kind, (hf f hr).plain⟩
  · rw [sfid_modify_of_ne href] at hr
    exact ⟨(h.files r f hr).kind, (h.files r f hr).plain⟩

/-- A new `SFid` has nothing yet. -/
theorem Backed.bindNew (h : Backed i x w) (fid : Fid) (e : Session.Event) :
    Backed i x { w with store := (w.store.bindNew 0 fid).record e } := by
  have hnew : ((w.store.bindNew 0 fid).sfid w.store.next) = ⟨some 0, none, none, 0⟩ :=
    Function.update_self ..
  have hold : ∀ {r}, r ≠ w.store.next → (w.store.bindNew 0 fid).sfid r = w.store.sfid r :=
    fun hr => Function.update_of_ne hr ..
  have hents : ∀ r d, ((w.store.bindNew 0 fid).sfid r).ent = some d →
      (w.store.sfid r).ent = some d := by
    intro r d hd
    by_cases hr : r = w.store.next
    · rw [hr, hnew] at hd
      cases hd
    · rwa [hold hr] at hd
  refine ⟨h.sound, fun r d hx hd => h.ents r d hx (hents r d hd),
    fun r r' d hx hx' hd hd' => h.lone r r' d hx hx' (hents r d hd) (hents r' d hd'),
    fun r f hf => ?_, h.fresh⟩
  change ((w.store.bindNew 0 fid).sfid r).file = some f at hf
  by_cases hr : r = w.store.next
  · rw [hr, hnew] at hf
    cases hf
  · rw [hold hr] at hf
    exact ⟨(h.files r f hf).kind, (h.files r f hf).plain⟩

end Table

/-! ## Helpers of the operations -/

section Helpers

variable {α : Type} {Q : α → World Host → Prop} {i ref d : Nat} {x : Option Nat} {w : World Host}
  {fid : Fid}

theorem lock_serves {k : Unit → Session.M α} (hg : Backed i none w)
    (hk : ∀ w', Still w w' → Serves i Q (k ()) w') :
    Serves i Q (Session.issue (.lock ref) >>= k) w := by
  refine Safe.cmd hg fun _ w' hexec => ?_
  simp only [World.exec, Session.exec] at hexec
  split at hexec
  · cases hexec
    exact hk _ (still_modify (g := fun f => { f with owner := some 0 }) (fun _ => rfl) fun _ => rfl)
  · cases hexec

theorem unlock_serves {k : Unit → Session.M α} (hk : ∀ w', Still w w' → Serves i Q (k ()) w') :
    Serves i Q (Session.issue (.unlock ref) >>= k) w := by
  refine Safe.cmd trivial fun _ w' hexec => ?_
  simp only [World.exec, Session.exec] at hexec
  split at hexec
  · cases hexec
  · cases hexec
    exact hk _ (still_modify (g := fun f => { f with owner := none }) (fun _ => rfl) fun _ => rfl)

theorem ent_serves {k : Nat → Session.M α}
    (hk : ∀ d, (w.store.sfid ref).ent = some d → Serves i Q (k d) w) :
    Serves i Q (Session.ent ref >>= k) w := by
  refine cmd_serves trivial rfl ?_
  cases hd : (w.store.sfid ref).ent with
  | none => trivial
  | some d => exact hk d hd

theorem file_serves {k : Session.File → Session.M α}
    (hk : ∀ f, (w.store.sfid ref).file = some f → Serves i Q (k f) w) :
    Serves i Q (Session.file ref >>= k) w := by
  refine cmd_serves trivial rfl ?_
  cases hf : (w.store.sfid ref).file with
  | none => trivial
  | some f => exact hk f hf

theorem getRef_serves (hg : Backed i none w) :
    Serves i (fun r w' => Still w w' ∧ ∀ ref, r = .ok ref → w.store.refs fid = some ref)
      (Session.getRef fid) w := by
  unfold Session.getRef
  split
  · exact ⟨.refl w, nofun⟩
  · refine cmd_serves trivial rfl ?_
    cases href : w.store.refs fid with
    | none => exact ⟨.refl w, nofun⟩
    | some ref =>
        refine lock_serves hg fun w₁ h₁ => cmd_serves trivial rfl ?_
        cases (w₁.store.sfid ref).ent with
        | none => exact unlock_serves fun w₂ h₂ => ⟨h₁.trans h₂, nofun⟩
        | some d => exact ⟨h₁, fun _ heq => congrArg some (Except.ok.inj heq)⟩

theorem newRef_serves (hg : Backed i none w) :
    Serves i (fun _ w' => Backed i none w') (Session.newRef fid) w := by
  unfold Session.newRef
  split
  · exact hg
  · refine Safe.cmd trivial fun r w' hexec => ?_
    simp only [World.exec, Session.exec] at hexec
    split at hexec
    · cases hexec
      exact hg
    · cases hexec
      exact hg.bindNew fid _

/-- `Backed` at the end, whatever is returned. -/
abbrev Fine {α : Type} (i : Nat) (p : Session.M α) (w : World Host) : Prop :=
  Serves i (fun _ w' => Backed i none w') p w

theorem deferUnlock_fine {body : Session.M α} (hbody : Fine i body w) :
    Fine i (Session.deferUnlock ref body) w :=
  hbody.bind fun _ _ h => unlock_serves fun _ hs => h.still hs

theorem withRef_fine {fail : Err → Session.Ret} {body : Nat → Session.M Session.Ret}
    (hg : Backed i none w)
    (hbody : ∀ ref w', Still w w' → w.store.refs fid = some ref → Fine i (body ref) w') :
    Fine i (Session.withRef fid fail body) w := by
  refine (getRef_serves hg).bind ?_
  rintro (err | ref) w' ⟨hs, href⟩
  · exact hg.still hs
  · exact deferUnlock_fine (hbody ref w' hs (href ref rfl))

theorem withNewRef_fine {fail : Err → Session.Ret} {body : Nat → Session.M Session.Ret}
    (hg : Backed i none w) (hbody : ∀ ref w', Backed i none w' → Fine i (body ref) w') :
    Fine i (Session.withNewRef fid fail body) w := by
  refine (newRef_serves hg).bind ?_
  rintro (err | ref) w' h
  · exact h
  · exact deferUnlock_fine (hbody ref w' h)

end Helpers

/-! ## Calls on a `Dirent` -/

section Dirents

variable {i ref d : Nat} {x : Option Nat} {w : World Host} {h : Handle}

theorem isSome_of_live {s : Store} {k : Key} (hk : s.Live k h) : (s.handles.lookup k).isSome :=
  hk ▸ rfl

/-- The type of the qid is that of the node. -/
theorem qid_serves (hg : Backed i x w) (hlive : (ram w).Live (i, d) h) :
    Serves i (fun (q : Qid) w' => Backed i x w' ∧ Quiet i w w' ∧
      (q.type &&& qtdir ≠ 0 ↔ ((ram w').node h.ent).IsDirectory)) (Session.call (.qid d)) w := by
  refine call_asks hg rfl (isSome_of_live hlive) trivial fun r q w' ha hr => ?_
  obtain ⟨h', hlive₁, hlive₂, rfl⟩ := ha.effect.does
  cases hlive.symm.trans hlive₁
  cases hr
  obtain ⟨hg', hq⟩ := ha.looks (c := .qid d) rfl rfl hg hlive hlive₂
  refine ⟨hg', hq, ?_⟩
  rw [Node.IsDirectory, ha.effect.grows.type h.ent (hg.sound.ent_lt hlive)]
  rfl

theorem isDir_serves (hg : Backed i x w) (hlive : (ram w).Live (i, d) h) :
    Serves i (fun (b : Bool) w' => Backed i x w' ∧ Quiet i w w' ∧
      (b ↔ ((ram w').node h.ent).IsDirectory)) (Session.isDir d) w := by
  refine (qid_serves hg hlive).bind ?_
  rintro q w' ⟨hg', hq, hdir⟩
  exact ⟨hg', hq, decide_eq_true_iff.trans hdir⟩

/-- Whatever the `Dirent` is, the session gets a file that it may use. -/
theorem openEnt_serves {getEnt : Session.M Nat} (hg : Backed i x w)
    (hlive : (ram w).Live (i, d) h) (mode : Flag)
    (hget : ∀ {w₁}, Quiet i w w₁ → Serves i (fun d' w' => d = d' ∧ w₁ = w') getEnt w₁) :
    Serves i (fun r w' => Backed i x w' ∧ Quiet i w w' ∧ ∃ f, r = .ok f ∧ Usable i w' f)
      (Session.openEnt getEnt mode) w := by
  refine (hget (Still.refl w).quiet).bind ?_
  rintro _ _ ⟨rfl, rfl⟩
  refine (isDir_serves hg hlive).bind ?_
  rintro b w₁ ⟨hg₁, hq₁, hdir⟩
  have hlive₁ : (ram w₁).Live (i, d) h := hq₁.live (hg.lt hlive) hlive
  cases b with
  | true =>
      refine (hget hq₁).bind ?_
      rintro _ _ ⟨rfl, rfl⟩
      refine Safe.bind (Q := fun res w' => (Backed i x w' ∧ Quiet i w₁ w') ∧
        res = (⟨w₁.store.calls, .readdir⟩, none)) ?_ ?_
      · refine call_asks hg₁ rfl (isSome_of_live hlive₁) trivial fun r err w' ha hr => ?_
        obtain ⟨h', dirs, hlive', hlive₂, rfl, hok⟩ := ha.effect.does
        cases hlive₁.symm.trans hlive'
        obtain ⟨dirs', heq, herr⟩ := hr
        cases heq
        have hnone : err = none := herr (hok ((hg₁.sound.kinded h.ent).isDir.mpr (hdir.mp rfl)))
        subst hnone
        exact ⟨ha.looks (c := .openDir d) rfl rfl hg₁ hlive₁ hlive₂, rfl⟩
      · rintro _ w₂ ⟨⟨hg₂, hq₂⟩, rfl⟩
        exact ⟨hg₂, hq₁.trans hq₂, _, rfl, nofun, nofun⟩
  | false =>
      refine (hget hq₁).bind ?_
      rintro _ _ ⟨rfl, rfl⟩
      refine Safe.bind (Q := fun res w' => (Backed i x w' ∧ Quiet i w₁ w') ∧
        ∃ f, res = (some f, none) ∧ Usable i w' f) ?_ ?_
      · refine call_asks hg₁ rfl (isSome_of_live hlive₁) trivial fun r a w' ha hr => ?_
        obtain ⟨h', hlive', hlive₂, rfl, hfile⟩ := ha.effect.does
        cases hlive₁.symm.trans hlive'
        obtain ⟨err, heq, rfl⟩ := hr
        cases heq
        refine ⟨ha.looks (c := .open d mode) rfl rfl hg₁ hlive₁ hlive₂, _, rfl, nofun, fun _ => ?_⟩
        refine ⟨ha.calls ▸ Nat.lt_succ_self _, h.ent, hfile, ha.effect.sound.ent_lt hlive₂, ?_⟩
        rw [Node.IsDirectory, ha.effect.grows.type h.ent (hg₁.sound.ent_lt hlive₁)]
        exact fun hd => Bool.noConfusion (hdir.mpr hd)
      · rintro _ w₂ ⟨⟨hg₂, hq₂⟩, f, rfl, hf⟩
        exact ⟨hg₂, hq₁.trans hq₂, f, rfl, hf⟩

/-- Nobody has the handle that the next call returns. -/
theorem Backed.spare_next (hg : Backed i x w) {w' : World Host}
    (hsfid : ∀ ref, w'.store.sfid ref = w.store.sfid ref)
    (hlive : ∃ h, (ram w').Live (i, w.store.calls) h) : Spare i x w.store.calls w' := by
  refine ⟨hlive, fun ref hx hd => ?_⟩
  rw [hsfid] at hd
  obtain ⟨h', hlive'⟩ := hg.ents ref _ hx hd
  exact Nat.lt_irrefl _ (hg.lt hlive')

/-- A walk that gets as far as it should returns a `Dirent` of its own. -/
theorem walk_serves (hg : Backed i x w) (hlive : (ram w).Live (i, d) h) (names : List Bytes) :
    Serves i (fun (res : List Qid × Option Nat × Option Err) w' => Backed i x w' ∧
      ∀ d', Session.ensureNonNil res.2.1 res.2.2 = .ok d' →
        names = [] ∨ res.1.length = names.length → Spare i x d' w') (Session.call (.walk d names))
          w := by
  have hfree : (ram w).handles.lookup (i, w.store.calls) = none := hg.fresh _ (Nat.le_refl _)
  refine call_asks hg rfl ⟨isSome_of_live hlive, hfree⟩ trivial fun r a w' ha hr => ?_
  obtain ⟨h', qids, complete, err, hlive₁, hlive₂, rfl, hnew⟩ := ha.effect.does
  cases hlive.symm.trans hlive₁
  obtain ⟨qids', complete', err', heq, rfl⟩ := hr
  cases heq
  refine ⟨(ha.looks (c := .walk d names) rfl rfl hg hlive hlive₂).1, fun d' hd' hlength => ?_⟩
  cases err with
  | some err => cases hd'
  | none =>
      cases hd'
      exact hg.spare_next ha.sfid (hnew rfl hlength)

/-- A call that takes the `Dirent` of a fid away. -/
theorem drops_serves {c : Session.Call} {op : Op} (hg : Backed i none w)
    (hd : (w.store.sfid ref).ent = some d) (hasks : asks i w.store.calls c = some op)
    (htarget : c.dirent = some d) (hop : Issued (ram w) op) (hkinds : KeepsKinds (ram w) op) :
    Serves i (fun _ w' => Backed i (some ref) w' ∧
      ∀ d', Spare i none d' w → Spare i (some ref) d' w') (Session.call c) w := by
  obtain ⟨h, hlive⟩ := hg.ents ref d nofun hd
  refine call_asks hg hasks hop hkinds fun r a w' ha _ => ⟨?_, fun d' hd' => ⟨?_, ?_⟩⟩
  · refine ha.good hasks (hg.except ref) fun e he => ?_
    cases htarget.symm.trans he
    exact ⟨hg.lt hlive, Or.inr (hg.unheld hd)⟩
  · obtain ⟨h', hlive'⟩ := hd'.live
    have hne : c.dirent ≠ some d' := by
      intro he
      cases htarget.symm.trans he
      exact hd'.unheld ref nofun hd
    exact ⟨h', (ha.handle hasks (Nat.ne_of_lt (hg.lt hlive')) hne).trans hlive'⟩
  · intro ref' _
    rw [ha.sfid]
    exact hd'.unheld ref' nofun

/-- A new file, with the `Dirent` that replaces that of its directory. -/
theorem create_serves (hg : Backed i none w) (hd : (w.store.sfid ref).ent = some d) (name : Bytes)
    (perm : UInt32) (mode : Flag) :
    Serves i (fun (res : Option Nat × Option Session.File × Option Err) w' =>
        (∀ err, Session.created res.1 res.2.1 res.2.2 = .error err → Backed i none w') ∧
        ∀ d' f, Session.created res.1 res.2.1 res.2.2 = .ok (d', f) →
          Backed i (some ref) w' ∧ Spare i (some ref) d' w' ∧ f = ⟨d', .plain⟩ ∧
          ∃ h', (ram w').Live (i, d') h' ∧ (ram w').files (i, d') = some h'.ent)
      (Session.call (.create d name perm mode)) w := by
  obtain ⟨h, hlive⟩ := hg.ents ref d nofun hd
  have hfree : (ram w).handles.lookup (i, w.store.calls) = none := hg.fresh _ (Nat.le_refl _)
  refine call_asks hg rfl ⟨isSome_of_live hlive, fun _ => hfree⟩ trivial fun r a w' ha hr => ?_
  obtain ⟨h', err, hlive₁, rfl, hok, hfail⟩ := ha.effect.does
  cases hlive.symm.trans hlive₁
  obtain ⟨err', heq, rfl⟩ := hr
  cases heq
  cases err with
  | some err =>
      refine ⟨fun _ _ => ?_, nofun⟩
      exact (ha.looks (c := .create d name perm mode) rfl rfl hg hlive (hfail nofun)).1
  | none =>
      obtain ⟨h', hlive', hfile⟩ := hok rfl
      refine ⟨nofun, ?_⟩
      rintro d' f ⟨⟩
      refine ⟨ha.good (c := .create d name perm mode) rfl (hg.except ref) ?_,
        (hg.except ref).spare_next ha.sfid ⟨h', hlive'⟩, rfl, h', hlive', hfile⟩
      rintro e ⟨⟩
      exact ⟨hg.lt hlive, Or.inr (hg.unheld hd)⟩

end Dirents

/-! ## The operations -/

section Operations

variable {α : Type} {Q : α → World Host → Prop} {k : Unit → Session.M α} {i ref d : Nat}
  {x : Option Nat} {w : World Host} {fid : Fid} {f : Session.File}

theorem setMode_fine {mode : Flag} (hg : Backed i x w)
    (hk : ∀ w', Still w w' → Backed i x w' → Serves i Q (k ()) w') :
    Serves i Q (Session.issue (.setMode ref mode) >>= k) w := by
  have hs : Still w (modify w ref fun f => { f with mode }) :=
    still_modify (fun _ => rfl) fun _ => rfl
  exact cmd_serves trivial rfl (hk _ hs (hg.still hs))

theorem ioUnit_fine (hg : Backed i none w) (f : Session.File) : Fine i (Session.ioUnit f) w := by
  unfold Session.ioUnit
  split
  · exact hg
  · refine Safe.bind (Q := fun _ w' => Backed i none w') ?_ fun _ _ h => h
    exact call_apart (c := .ioUnit f) rfl rfl hg fun _ h => h

theorem qid_fine (hg : Backed i none w) (hd : (w.store.sfid ref).ent = some d) :
    Fine i (Session.call (.qid d)) w := by
  obtain ⟨h, hlive⟩ := hg.ents ref d nofun hd
  exact (qid_serves hg hlive).mono fun _ _ h => h.1

theorem delRefAction_fine (hg : Backed i none w) (remove : Bool) :
    Fine i (Session.delRefAction ref remove) w := by
  refine ent_serves fun d hd => ?_
  obtain ⟨h, hlive⟩ := hg.ents ref d nofun hd
  have hafter : ∀ (err : Option Err) w', Backed i (some ref) w' → Fine i
      (do Session.issue (.setEnt ref none); return Session.combineErrors none err) w' :=
    fun _ _ h => cmd_serves trivial rfl (h.setEnt nofun)
  cases remove with
  | true =>
      refine Safe.bind (drops_serves hg hd rfl rfl (isSome_of_live hlive) trivial) ?_
      exact fun err w' h => hafter err w' h.1
  | false =>
      refine Safe.bind (drops_serves hg hd rfl rfl (isSome_of_live hlive) trivial) ?_
      exact fun err w' h => hafter err w' h.1

theorem delRef_fine (hg : Backed i none w) (remove : Bool) :
    Fine i (Session.delRef fid remove) w := by
  refine Safe.cmd trivial fun r w₁ hexec => ?_
  have hs : Still w w₁ := by
    simp only [World.exec, Session.exec] at hexec
    split at hexec <;> cases hexec <;> exact ⟨rfl, rfl, fun _ => rfl, fun _ => rfl⟩
  cases r with
  | none => exact hg.still hs
  | some ref =>
      refine lock_serves (hg.still hs) fun w₂ h₂ => deferUnlock_fine ?_
      have hg₂ := (hg.still hs).still h₂
      refine cmd_serves trivial rfl ?_
      cases (w₂.store.sfid ref).ent with
      | none => exact hg₂
      | some d => exact delRefAction_fine hg₂ remove

theorem sweep_fine (hg : Backed i none w) (fid : Fid) : Fine i (Session.sweep fid) w := by
  refine cmd_serves trivial rfl ?_
  cases w.store.refs fid with
  | none => exact hg
  | some ref =>
      refine cmd_serves trivial rfl ?_
      cases (w.store.sfid ref).ent with
      | none => exact hg
      | some d => exact (delRefAction_fine hg false).bind fun _ _ h => h

theorem stop_fine (hg : Backed i none w) (err : Option Err) (fids : List Fid) :
    Fine i (Session.stop err fids) w := by
  induction fids generalizing w with
  | nil => exact hg
  | cons fid fids ih => exact (sweep_fine hg fid).bind fun _ _ h => ih h

/-- There is no authentication. -/
theorem auth_fine (hg : Backed i none w) (uname aname : Bytes) :
    Fine i (Session.auth fid uname aname) w := by
  unfold Session.auth
  dsimp only
  split
  · exact hg
  · refine Safe.bind (Q := fun required w' => required = false ∧ Backed i none w') ?_ ?_
    · exact call_apart (c := .requireAuth) rfl rfl hg fun _ h => ⟨rfl, h⟩
    · rintro _ w' ⟨rfl, hg'⟩
      exact hg'

theorem delete_fine (hk : ∀ w', Still w w' → Serves i Q (k ()) w') :
    Serves i Q (Session.issue (.delete fid) >>= k) w :=
  cmd_serves trivial rfl (hk _ ⟨rfl, rfl, fun _ => rfl, fun _ => rfl⟩)

theorem attachWith_fine (hg : Backed i none w) (uname aname : Bytes) (af : Option Session.File) :
    Fine i (Session.attachWith fid uname aname af) w := by
  refine withNewRef_fine hg fun ref w hg => ?_
  refine Safe.bind (Q := fun res w' => res = (some w.store.calls, none) ∧ Backed i none w' ∧
    Spare i none w.store.calls w') ?_ ?_
  · refine call_asks hg rfl (hg.fresh _ (Nat.le_refl _)) trivial fun r a w' ha hr => ?_
    obtain ⟨rfl, hlive⟩ := ha.effect.does
    obtain ⟨err, heq, rfl⟩ := hr
    cases heq
    exact ⟨rfl, ha.good (c := .attach uname aname af) rfl hg nofun, hg.spare_next ha.sfid hlive⟩
  · rintro _ w₁ ⟨rfl, hg₁, hd⟩
    have hd' : Spare i (some ref) w.store.calls w₁ := ⟨hd.live, fun r _ => hd.unheld r nofun⟩
    have hnew : ∀ d, some w.store.calls = some d → Spare i (some ref) d w₁ := by
      rintro _ ⟨⟩
      exact hd'
    have hg₂ := (hg₁.except ref).setEnt hnew
    refine cmd_serves trivial rfl ?_
    obtain ⟨h, hlive⟩ := hd.live
    exact (qid_serves hg₂ hlive).bind fun _ _ h => h.1

theorem attach_fine (hg : Backed i none w) (afid : Fid) (uname aname : Bytes) :
    Fine i (Session.attach fid afid uname aname) w := by
  unfold Session.attach
  split
  · exact attachWith_fine hg uname aname none
  · refine (getRef_serves hg).bind ?_
    rintro (err | aref) w₁ ⟨hs, -⟩
    · exact hg.still hs
    · have hg₁ := hg.still hs
      refine cmd_serves trivial rfl ?_
      cases (w₁.store.sfid aref).file with
      | none => exact hg₁
      | some f =>
          refine deferUnlock_fine (cmd_serves trivial rfl ?_)
          cases hf : (w₁.store.sfid aref).file with
          | none => exact hg₁
          | some f =>
              -- the file is no `AuthFile`
              have hkind := (hg₁.files aref f hf).kind
              obtain ⟨id, _ | _ | _⟩ := f
              · exact hg₁
              · exact absurd rfl hkind
              · exact hg₁

theorem walkEnt_serves (hg : Backed i none w) (same : Bool) (names : List Bytes) :
    Serves i (fun r w' => Backed i none w' ∧ ∀ qids d, r = .ok (qids, d) →
      qids.length = names.length → Spare i none d w') (Session.walkEnt ref same names) w := by
  unfold Session.walkEnt
  split
  · rename_i hnames
    subst hnames
    split
    · exact ⟨hg, nofun⟩
    · refine ent_serves fun d hd => ?_
      obtain ⟨h, hlive⟩ := hg.ents ref d nofun hd
      refine (walk_serves hg hlive []).bind ?_
      rintro ⟨qids, e, err⟩ w₁ ⟨hg₁, hd₁⟩
      cases he : Session.ensureNonNil e err with
      | error err =>
          simp only [he]
          exact ⟨hg₁, nofun⟩
      | ok d =>
          simp only [he]
          refine ⟨hg₁, ?_⟩
          rintro _ _ ⟨⟩ _
          exact hd₁ d he (Or.inl rfl)
  · refine ent_serves fun d hd => ?_
    obtain ⟨h, hlive⟩ := hg.ents ref d nofun hd
    refine (isDir_serves hg hlive).bind ?_
    rintro b w₁ ⟨hg₁, -, -⟩
    cases b with
    | false => exact ⟨hg₁, nofun⟩
    | true =>
        refine ent_serves fun d hd => ?_
        obtain ⟨h, hlive⟩ := hg₁.ents ref d nofun hd
        refine (walk_serves hg₁ hlive names).bind ?_
        rintro ⟨qids, e, err⟩ w₂ ⟨hg₂, hd₂⟩
        cases he : Session.ensureNonNil e err with
        | error err =>
            simp only [he]
            exact ⟨hg₂, nofun⟩
        | ok d =>
            simp only [he]
            split
            · exact ⟨hg₂, nofun⟩
            · refine ⟨hg₂, ?_⟩
              rintro _ _ ⟨⟩ hlength
              exact hd₂ d he (Or.inr hlength)

theorem walkLocked_fine (hg : Backed i none w) (newref : Option Nat) (names : List Bytes) :
    Fine i (Session.walkLocked ref newref names) w := by
  refine (walkEnt_serves hg newref.isNone names).bind ?_
  rintro (r | ⟨qids, d⟩) w₁ ⟨hg₁, hd₁⟩
  · exact hg₁
  · dsimp only
    split
    · exact hg₁
    · rename_i hlength
      have hd := hd₁ qids d rfl (not_not.mp hlength)
      cases newref with
      | none =>
          refine ent_serves fun d' hd' => ?_
          obtain ⟨h, hlive⟩ := hg₁.ents ref d' nofun hd'
          refine Safe.bind (drops_serves hg₁ hd' rfl rfl (isSome_of_live hlive) trivial) ?_
          rintro _ w₂ ⟨hg₂, hkept⟩
          refine cmd_serves trivial rfl (hg₂.setEnt fun d'' heq => ?_)
          cases heq
          exact hkept d hd
      | some newref =>
          refine unlock_serves fun w₂ hs => ?_
          have hg₂ := hg₁.still hs
          have hd₂ := hd.quiet hg₁ hs.quiet
          refine cmd_serves trivial rfl ((hg₂.except newref).setEnt fun d'' heq => ?_)
          cases heq
          exact ⟨hd₂.live, fun ref' _ => hd₂.unheld ref' nofun⟩

theorem walkCleanup_fine (hg : Backed i none w) (newref : Option Nat) :
    Fine i (Session.walkCleanup fid ref newref) w := by
  have hunlock : ∀ {w} ref, Backed i none w → Fine i (Session.issue (.unlock ref)) w := by
    intro w ref hg
    refine Safe.mono (unlock_serves (k := fun _ => pure ()) fun w' hs => ?_) fun _ _ h => h
    exact hg.still hs
  cases newref with
  | none => exact hunlock ref hg
  | some newref =>
      refine unlock_serves fun w₁ h₁ => delete_fine fun w₂ h₂ => ?_
      exact hunlock newref ((hg.still h₁).still h₂)

theorem walk_fine (hg : Backed i none w) (newfid : Fid) (names : List Bytes) :
    Fine i (Session.walk fid newfid names) w := by
  unfold Session.walk
  split
  · exact hg
  · refine (getRef_serves hg).bind ?_
    rintro (err | ref) w₁ ⟨hs, -⟩
    · exact hg.still hs
    · refine Safe.bind (Q := fun _ w' => Backed i none w') ?_ ?_
      · unfold Session.walkRef
        split
        · exact hg.still hs
        · refine (newRef_serves (hg.still hs)).bind ?_
          rintro (err | newref) w₂ h₂ <;> exact h₂
      · rintro (err | newref) w₂ h₂
        · exact (walkCleanup_fine h₂ none).bind fun _ _ h => h
        · refine (walkLocked_fine h₂ newref names).bind ?_
          rintro ⟨r, ref', newref'⟩ w₃ h₃
          exact (walkCleanup_fine h₃ newref').bind fun _ _ h => h

theorem transfer_fine {refuses : Flag → Bool} {denied : Err}
    {io : Session.File → Session.M (Int × Option Err)} (hg : Backed i none w)
    (hio : ∀ f w, Backed i none w → Usable i w f → Fine i (io f) w) :
    Fine i (Session.transfer fid refuses denied io) w := by
  refine withRef_fine hg fun ref w₁ hs _ => ?_
  have hg₁ := hg.still hs
  refine cmd_serves trivial rfl ?_
  cases (w₁.store.sfid ref).file with
  | none => exact hg₁
  | some f =>
      refine cmd_serves trivial rfl ?_
      dsimp only
      split
      · exact hg₁
      · refine file_serves fun f hf => ?_
        exact (hio f w₁ hg₁ (hg₁.files ref f hf)).bind fun _ _ h => h

theorem Usable.isSome (h : Usable i w f) (hkind : f.kind = .plain) :
    ∃ n, (ram w).files (i, f.id) = some n ∧ ¬ ((ram w).node n).IsDirectory := by
  obtain ⟨-, n, hn, -, hdir⟩ := h.plain hkind
  exact ⟨n, hn, hdir⟩

theorem read_fine (hg : Backed i none w) (len : Nat) (offset : Int64) :
    Fine i (Session.read fid len offset) w := by
  refine transfer_fine hg fun f w hg hf => ?_
  obtain ⟨id, kind⟩ := f
  cases kind with
  | auth => exact absurd rfl hf.kind
  | readdir =>
      refine call_apart rfl ?_ hg fun _ h => h
      exact Readdir.read_state (I := fun fs : Host => fs.store = ram w) (fun _ h => h) rfl
  | plain =>
      obtain ⟨n, hn, -⟩ := hf.isSome rfl
      by_cases hoffset : offset.toInt < 0
      · refine call_serves (Or.inl hoffset) fun a p disk w' hreply _ _ _ => ?_
        rw [FileSys.reply_passed (c := .read ⟨id, .plain⟩ len offset) trivial] at hreply
        obtain ⟨⟨a', p', fs⟩, hask, -⟩ := Option.map_eq_some_iff.mp hreply
        obtain ⟨env, r, m, hrun⟩ := Host.ask_inv hask
        cases (perform_read_crash hn (Node.read_backward _ len hoffset)).symm.trans hrun
      · refine call_asks hg rfl ⟨hn ▸ rfl, Int.not_lt.mp hoffset⟩ trivial fun r a w' ha _ => ?_
        exact ha.good (c := .read ⟨id, .plain⟩ len offset) rfl hg nofun

theorem write_fine (hg : Backed i none w) (p : Bytes) (offset : Int64) :
    Fine i (Session.write fid p offset) w := by
  refine transfer_fine hg fun f w hg hf => ?_
  obtain ⟨id, kind⟩ := f
  cases kind with
  | auth => exact absurd rfl hf.kind
  | readdir => exact call_apart rfl rfl hg fun _ h => h
  | plain =>
      obtain ⟨n, hn, hdir⟩ := hf.isSome rfl
      by_cases hoffset : offset.toInt < 0
      · refine call_serves (Or.inl hoffset) fun a p' disk w' hreply _ _ _ => ?_
        rw [FileSys.reply_passed (c := .write ⟨id, .plain⟩ p offset) trivial] at hreply
        obtain ⟨⟨a', p'', fs⟩, hask, -⟩ := Option.map_eq_some_iff.mp hreply
        obtain ⟨env, r, m, hrun⟩ := Host.ask_inv hask
        cases (perform_write_crash hn (Node.write_backward _ p hoffset)).symm.trans hrun
      · refine call_asks hg rfl ⟨hn ▸ rfl, Int.not_lt.mp hoffset⟩ ?_ fun r a w' ha _ => ?_
        · intro m hm
          cases hn.symm.trans hm
          exact hdir
        · exact ha.good (c := .write ⟨id, .plain⟩ p offset) rfl hg nofun

theorem setFile_serves {file : Option Session.File} (hg : Backed i x w)
    (hf : ∀ f, file = some f → Usable i w f)
    (hk : ∀ w', Backed i x w' → w'.disk = w.disk → w'.store.calls = w.store.calls →
      (∀ r, (w'.store.sfid r).ent = (w.store.sfid r).ent) → Serves i Q (k ()) w') :
    Serves i Q (Session.issue (.setFile ref file) >>= k) w := by
  exact cmd_serves trivial rfl (hk _ (hg.setFile hf) rfl rfl (ent_setFile w ref file))

theorem openLocked_fine (hg : Backed i none w) (mode : Flag) :
    Fine i (Session.openLocked ref mode) w := by
  refine cmd_serves trivial rfl ?_
  cases (w.store.sfid ref).file with
  | some f => exact hg
  | none =>
      cases hd : (w.store.sfid ref).ent with
      | none =>
          refine cmd_serves trivial rfl ?_
          rw [hd]
          trivial
      | some d =>
          obtain ⟨h, hlive⟩ := hg.ents ref d nofun hd
          refine (openEnt_serves hg hlive mode fun hq => ?_).bind ?_
          · refine cmd_serves trivial rfl ?_
            rw [hq.ents, hd]
            exact ⟨rfl, rfl⟩
          rintro _ w₁ ⟨hg₁, -, f, rfl, hf⟩
          refine setFile_serves hg₁ (fun f' heq => ?_) fun w₂ hg₂ _ _ _ =>
            setMode_fine hg₂ fun _ _ h => h
          cases heq
          exact hf

theorem open_fine (hg : Backed i none w) (mode : Flag) : Fine i (Session.open fid mode) w := by
  refine withRef_fine hg fun ref w₁ hs _ => (openLocked_fine (hg.still hs) mode).bind ?_
  rintro (_ | err) w₂ hg₂
  · refine ent_serves fun d hd => (qid_fine hg₂ hd).bind fun q w₃ hg₃ => ?_
    refine file_serves fun f _ => ?_
    exact (ioUnit_fine hg₃ f).bind fun _ _ h => h
  · exact hg₂

theorem replaceEnt_fine (hg : Backed i (some ref) w) (hd : Spare i (some ref) d w)
    (hf : Usable i w f) (mode : Flag) : Fine i (Session.replaceEnt ref d f mode) w := by
  refine setFile_serves hg nofun fun w₁ hg₁ hdisk hcalls hents => ?_
  refine setMode_fine hg₁ fun w₂ hs hg₂ => ?_
  have hram : ram w₂ = ram w := congrArg (·.fs.store) (hs.disk.trans hdisk)
  have hd₂ : Spare i (some ref) d w₂ := by
    refine ⟨hram ▸ hd.live, fun r hx => ?_⟩
    rw [hs.ents, hents]
    exact hd.unheld r hx
  have hf₂ : Usable i w₂ f := by
    refine ⟨hf.kind, fun hplain => ?_⟩
    rw [hram, hs.calls, hcalls]
    exact hf.plain hplain
  refine cmd_serves trivial rfl ?_
  refine setFile_serves (hg₂.setEnt fun d' heq => ?_) (fun f' heq => ?_) fun w₃ hg₃ _ _ _ => ?_
  · cases heq
    exact hd₂
  · cases heq
    exact ⟨hf₂.kind, hf₂.plain⟩
  · refine setMode_fine hg₃ fun w₄ _ hg₄ => ent_serves fun d hd => ?_
    refine (qid_fine hg₄ hd).bind fun q w₅ hg₅ => ?_
    exact (ioUnit_fine hg₅ f).bind fun _ _ h => h

theorem createLocked_fine (hg : Backed i none w) (parent : Fid) (name : Bytes) (perm : UInt32)
    (mode : Flag) : Fine i (Session.createLocked ref parent name perm mode) w := by
  refine ent_serves fun d hd => ?_
  obtain ⟨h, hlive⟩ := hg.ents ref d nofun hd
  refine (isDir_serves hg hlive).bind ?_
  rintro b w₁ ⟨hg₁, -, -⟩
  cases b with
  | false => exact hg₁
  | true =>
      refine ent_serves fun d hd => (create_serves hg₁ hd name perm mode).bind ?_
      rintro ⟨e, f, err⟩ w₂ ⟨hfail, hok⟩
      cases hc : Session.created e f err with
      | error err =>
          simp only [hc]
          exact hfail err hc
      | ok df =>
          obtain ⟨d, f⟩ := df
          simp only [hc]
          obtain ⟨hg₂, hd₂, rfl, h', hlive', hfile⟩ := hok d f hc
          have hlt := hg₂.lt hlive'
          refine (isDir_serves hg₂ hlive').bind ?_
          rintro b w₃ ⟨hg₃, hq₃, hdir⟩
          have hlive₃ := hq₃.live hlt hlive'
          have hd₃ := hd₂.quiet hg₂ hq₃
          cases b with
          | true =>
              have hget : ∀ {w}, Serves i (fun d' w' => d = d' ∧ w = w') (pure d) w := ⟨rfl, rfl⟩
              refine (openEnt_serves hg₃ hlive₃ mode fun _ => hget).bind ?_
              rintro _ w₄ ⟨hg₄, hq₄, f, rfl, hf⟩
              exact replaceEnt_fine hg₄ (hd₃.quiet hg₃ hq₄) hf mode
          | false =>
              have hkind : Session.FileKind.plain ≠ .auth := nofun
              refine replaceEnt_fine hg₃ hd₃ ⟨hkind, fun _ => ?_⟩ mode
              refine ⟨Nat.lt_of_lt_of_le hlt hq₃.calls, ?_⟩
              refine ⟨h'.ent, (hq₃.opened d hlt).trans hfile, hg₃.sound.ent_lt hlive₃, ?_⟩
              exact fun hd => Bool.noConfusion (hdir.mpr hd)

theorem create_fine (hg : Backed i none w) (name : Bytes) (perm : UInt32) (mode : Flag) :
    Fine i (Session.create fid name perm mode) w := by
  unfold Session.create
  split
  · exact hg
  · exact withRef_fine hg fun ref w₁ hs _ => createLocked_fine (hg.still hs) fid name perm mode

theorem stat_fine (hg : Backed i none w) : Fine i (Session.stat fid) w := by
  refine withRef_fine hg fun ref w₁ hs _ => ent_serves fun d hd => ?_
  have hg₁ := hg.still hs
  obtain ⟨h, hlive⟩ := hg₁.ents ref d nofun hd
  refine Safe.bind (Q := fun _ w' => Backed i none w') ?_ fun _ _ h => h
  refine call_asks hg₁ rfl (isSome_of_live hlive) trivial fun r a w' ha _ => ?_
  obtain ⟨h', dir, hlive₁, hlive₂, -⟩ := ha.effect.does
  cases hlive.symm.trans hlive₁
  exact (ha.looks (c := .stat d) rfl rfl hg₁ hlive hlive₂).1

/-- What `WStat` does to the kind of the node that a fid refers to. -/
def Suited (i : Nat) (s : Session.Store) (ram : Store) (fid : Fid) (dir : Dir) : Prop :=
  ∀ ref ∈ s.refs fid, ∀ d ∈ (s.sfid ref).ent, ∀ slot ∈ ram.handles.lookup (i, d),
    (ram.node slot.handle.ent).Suits dir

instance (i : Nat) (s : Session.Store) (ram : Store) (fid : Fid) (dir : Dir) :
    Decidable (Suited i s ram fid dir) := by
  unfold Suited
  infer_instance

theorem wstat_fine (hg : Backed i none w) {dir : Dir} (hdir : Suited i w.store (ram w) fid dir) :
    Fine i (Session.wstat fid dir) w := by
  refine withRef_fine hg fun ref w₁ hs href => ent_serves fun d hd => ?_
  have hg₁ := hg.still hs
  have hram : ram w₁ = ram w := congrArg (·.fs.store) hs.disk
  obtain ⟨h, hlive⟩ := hg₁.ents ref d nofun hd
  refine Safe.bind (Q := fun _ w' => Backed i none w') ?_ fun _ _ h => h
  refine call_asks hg₁ rfl (isSome_of_live hlive) ?_ fun r a w' ha _ => ?_
  · rw [hram]
    exact hdir ref href d ((hs.ents ref).symm.trans hd)
  · obtain ⟨h', err, hlive₁, hlive₂, -⟩ := ha.effect.does
    cases hlive.symm.trans hlive₁
    exact (ha.looks (c := .wstat d dir) rfl rfl hg₁ hlive hlive₂).1

end Operations

/-! ## Any number of sessions -/

/-- The server, with the fid tables of its sessions and their `Readdir`s. -/
structure Service where
  host : Host
  stores : Nat → Session.Store
  readdirs : Nat → Nat → Readdir

namespace Service

/-- A fresh server, and sessions that have not been used. -/
def fresh (now : Time) (choices : Nat → Nat → Env) : Service :=
  ⟨.fresh now choices, fun _ => Session.init, fun _ _ => newReaddir⟩

inductive Act where
  | op (i : Nat) (op : Session.Op)
  | stop (i : Nat) (err : Option Err) (fids : List Fid)

namespace Act

def session : Act → Nat
  | op i _ | stop i _ _ => i

def prog : Act → Session.M Session.Ret
  | op _ o => o.prog
  | stop _ err fids => Session.stop err fids

def start (s : Session.Store) : Act → Session.Store
  | op _ o => Session.start s 0 o
  | stop _ _ _ => s

end Act

def world (s : Service) (i : Nat) : World Host := ⟨s.stores i, ⟨s.host, s.readdirs i⟩, []⟩

def put (s : Service) (i : Nat) (w : World Host) : Service :=
  ⟨w.disk.fs, Function.update s.stores i w.store, Function.update s.readdirs i w.disk.readdirs⟩

/-- What comes of an operation that runs alone. -/
def outcome (s : Service) (act : Act) : Outcome Session.Cmd Session.Ret (World Host) :=
  run (World.exec (fileSys act.session)) 0 (fun _ => ()) act.prog
    { s.world act.session with store := act.start (s.stores act.session) } 0

/-- An operation returns, or waits for a mutex.  If it panics, there is no next
state. -/
def step (s : Service) (act : Act) : Option Service :=
  match s.outcome act with
  | .returned _ w _ | .blocked (.lock _) w => some (s.put act.session w)
  | _ => none

/-- A `WStat` does not change whether the mode of its node says directory. -/
def KeepsKind (s : Service) : Act → Prop
  | .op i (.wstat fid dir) => Suited i (s.stores i) s.host.store fid dir
  | _ => True

instance (s : Service) (act : Act) : Decidable (s.KeepsKind act) := by
  unfold KeepsKind
  split <;> infer_instance

end Service

/-- What the operations of session `i` leave alone. -/
structure Elsewhere (i : Nat) (s s' : Store) : Prop where
  grows : s.Grows s'
  handles : ∀ j, j ≠ i → ∀ n, s'.handles.lookup (j, n) = s.handles.lookup (j, n)
  files : ∀ j, j ≠ i → ∀ n, s'.files (j, n) = s.files (j, n)

theorem Elsewhere.refl (i : Nat) (s : Store) : Elsewhere i s s :=
  ⟨.refl s, fun _ _ _ => rfl, fun _ _ _ => rfl⟩

theorem Elsewhere.trans {i : Nat} {s₁ s₂ s₃ : Store} (h : Elsewhere i s₁ s₂)
    (h' : Elsewhere i s₂ s₃) : Elsewhere i s₁ s₃ where
  grows := h.grows.trans h'.grows
  handles j hj n := (h'.handles j hj n).trans (h.handles j hj n)
  files j hj n := (h'.files j hj n).trans (h.files j hj n)

/-- Handles and files of other sessions have other keys. -/
theorem exec_elsewhere {i t : Nat} {w w' : World Host} {c : Session.Cmd} {r : c.Res}
    (h : World.exec (fileSys i) w t c () = some (r, w')) : Elsewhere i (ram w) (ram w') := by
  cases c with
  | leave c =>
      simp only [World.exec] at h
      split at h
      · cases h
      · rename_i a p disk hreply
        cases h
        rcases reply_inv hreply with hsame | ⟨op, env, r, m, hasks, hrun⟩
        · change Elsewhere i (ram w) disk.fs.store
          rw [hsame]
          exact .refl i _
        · refine ⟨perform_grows hrun, fun j hj n => perform_handle (fun hmem => ?_) hrun,
            fun j hj n => perform_file (fun hmem => ?_) hrun⟩
          · rcases asks_keys hasks hmem with heq | ⟨e, -, heq⟩ <;> exact hj (Prod.mk.inj heq).1
          · exact hj (Prod.mk.inj (asks_opens hasks hmem)).1
  | _ =>
      simp only [World.exec] at h
      obtain ⟨p, -, heq⟩ := Option.map_eq_some_iff.mp h
      cases heq
      exact .refl i _

theorem Backed.elsewhere {i j : Nat} {w w' : World Host} (h : Backed j none w) (hs : Sound (ram w'))
    (he : Elsewhere i (ram w) (ram w')) (hj : j ≠ i) (hstore : w'.store = w.store) :
    Backed j none w' := by
  refine ⟨hs, ?_, ?_, ?_, ?_⟩ <;> rw [hstore]
  · intro ref d hx hd
    obtain ⟨h', hlive⟩ := h.ents ref d hx hd
    exact ⟨h', (he.handles j hj d).trans hlive⟩
  · exact h.lone
  · intro ref f hf
    have hu := h.files ref f hf
    refine ⟨hu.kind, fun hplain => ?_⟩
    obtain ⟨hlt, hfit⟩ := hu.plain hplain
    exact ⟨hstore ▸ hlt, hfit.grows he.grows (he.files j hj f.id)⟩
  · intro n hn
    exact (he.handles j hj n).trans (h.fresh n hn)

namespace Service

variable {s s' : Service} {act : Act}

def Settled (s : Service) : Prop := ∀ i, Backed i none (s.world i)

theorem settled_fresh (now : Time) (choices : Nat → Nat → Env) : (fresh now choices).Settled :=
  fun _ => ⟨sound_init now, nofun, nofun, nofun, fun _ _ => rfl⟩

theorem Act.prog_fine {w : World Host} (hg : Backed act.session none w)
    (hact : ∀ j fid dir, act = .op j (.wstat fid dir) → Suited j w.store (ram w) fid dir) :
    Fine act.session act.prog w := by
  cases act with
  | stop i err fids => exact stop_fine hg err fids
  | op i op =>
      cases op with
      | auth afid uname aname => exact auth_fine hg uname aname
      | attach fid afid uname aname => exact attach_fine hg afid uname aname
      | clunk fid => exact (delRef_fine hg false).bind fun _ _ h => h
      | remove fid => exact (delRef_fine hg true).bind fun _ _ h => h
      | walk fid newfid names => exact walk_fine hg newfid names
      | read fid len offset => exact read_fine hg len offset
      | write fid p offset => exact write_fine hg p offset
      | «open» fid mode => exact open_fine hg mode
      | create parent name perm mode => exact create_fine hg name perm mode
      | stat fid => exact stat_fine hg
      | wstat fid dir => exact wstat_fine hg (hact i fid dir rfl)

/-- What is left behind by an operation, also by one that waits. -/
theorem outcome_meets (hs : s.Settled) (hact : s.KeepsKind act) :
    (s.outcome act).Meets
      (fun _ w => Backed act.session none w ∧ Elsewhere act.session s.host.store (ram w))
      (fun c w => mayIssue act.session w c ∧ Elsewhere act.session s.host.store (ram w)) := by
  have hstart : Still (s.world act.session)
      { s.world act.session with store := act.start (s.stores act.session) } := by
    cases act with
    | op i o => exact ⟨rfl, rfl, fun _ => rfl, fun _ => rfl⟩
    | stop i err fids => exact .refl _
  have hfine := Act.prog_fine ((hs act.session).still hstart) fun j fid dir heq => by
    subst heq
    exact hact
  have hmeets : (s.outcome act).Meets _ _ :=
    Safe.run (I := fun w o => w = o ∧ Elsewhere act.session s.host.store (ram w))
      (fun {w w' o c e r} hI _ hexec => by
        obtain ⟨rfl, he⟩ := hI
        exact ⟨w', hexec, rfl, he.trans (exec_elsewhere hexec)⟩) hfine ⟨rfl, .refl _ _⟩ 0
  cases hrun : s.outcome act with
  | returned r w n =>
      rw [hrun] at hmeets
      obtain ⟨_, hgood, rfl, he⟩ := hmeets
      exact ⟨hgood, he⟩
  | crashed w => trivial
  | blocked c w =>
      rw [hrun] at hmeets
      obtain ⟨_, hpre, rfl, he⟩ := hmeets
      exact ⟨hpre, he⟩

/-- Every call of a session is answered, but for those that panic. -/
theorem answers (hs : s.Settled) (hact : s.KeepsKind act) {c : Session.Call} {w : World Host}
    (h : s.outcome act = .blocked (.leave c) w) : backward c := by
  have hmeets := outcome_meets hs hact
  rw [h] at hmeets
  refine hmeets.1.resolve_right fun hsome => ?_
  obtain ⟨⟨a, p, disk⟩, hreply⟩ := Option.isSome_iff_exists.mp hsome
  obtain ⟨m, hexec⟩ := exec_of_blocked h
  simp only [World.exec, hreply] at hexec
  cases hexec

theorem Settled.put {i : Nat} {w : World Host} (hs : s.Settled) (hg : Backed i none w)
    (he : Elsewhere i s.host.store (ram w)) : (s.put i w).Settled := by
  intro j
  by_cases hj : j = i
  · subst hj
    refine hg.still ⟨?_, ?_, fun ref => ?_, fun ref => ?_⟩ <;>
      simp only [world, Service.put, Function.update_self]
  · refine (hs j).elsewhere (i := i) hg.sound he hj ?_
    simp only [world, Service.put, Function.update_of_ne hj]

theorem Settled.step (hs : s.Settled) (hact : s.KeepsKind act) (h : s.step act = some s') :
    s'.Settled := by
  have hmeets := outcome_meets hs hact
  unfold Service.step at h
  split at h
  · rename_i r w n hrun
    cases h
    rw [hrun] at hmeets
    exact hs.put hmeets.1 hmeets.2
  · rename_i ref w hrun
    cases h
    rw [hrun] at hmeets
    exact hs.put hmeets.1 hmeets.2
  · cases h

end Service

/-- Where no `WStat` changes whether the mode of its node says directory, every
node below the root is of one kind, in every state that is reached. -/
theorem kinds_agree (now : Time) (choices : Nat → Nat → Env) (acts : List Service.Act) {s : Service}
    (hacts : Guarded Service.step Service.KeepsKind (.fresh now choices) acts)
    (hrun : Conc.exec Service.step (.fresh now choices) acts = some s) {n : Nat}
    (hn : s.host.store.Below 0 n) : s.host.store.OneKind n := by
  have hs := exec_invariant Service.Settled.step acts (Service.settled_fresh now choices) hacts hrun
  exact (hs 0).sound.oneKind hn

/-- One session makes the file `f` and writes to it; another one asks for other
permissions of the root. -/
def twoSessions : List Service.Act :=
  [.op 0 (.attach 1 noFid [] []), .op 0 (.walk 1 2 []), .op 0 (.create 2 (lit "f") 0o644 ordwr),
    .op 0 (.write 2 [1, 2, 3] 0), .op 1 (.attach 1 noFid [] []),
    .op 1 (.wstat 1 { Dir.zero with mode := dmdir ||| 0o700, length := 0xFFFFFFFFFFFFFFFF })]

/-- A fresh server on which the clock stands still. -/
def Service.calm : Service := .fresh Time.zero fun _ _ => still

theorem kinds_agree_twoSessions :
    ∃ s, Conc.exec Service.step .calm twoSessions = some s ∧ (s.host.store.node 1).data =
      [1, 2, 3] ∧ s.host.store.OneKind 0 ∧ s.host.store.OneKind 1 := by
  obtain ⟨s, hrun, hdata, hf⟩ : ∃ s, Conc.exec Service.step .calm twoSessions = some s ∧
      (s.host.store.node 1).data = [1, 2, 3] ∧ s.host.store.entry 0 (lit "f") = some 1 :=
    ⟨_, rfl, rfl, rfl⟩
  have hagree := fun n =>
    kinds_agree Time.zero (fun _ _ => still) twoSessions (by decide +kernel) hrun
    (n := n)
  exact ⟨s, hrun, hdata, hagree 0 .refl, hagree 1 (.single (mem_links.mpr ⟨_, hf⟩))⟩

/-- A client sets the permissions of the root and forgets about `DMDIR`. -/
def chmodsRoot : List Service.Act :=
  [.op 0 (.attach 1 noFid [] []),
    .op 0 (.wstat 1 { Dir.zero with mode := 0o755, length := 0xFFFFFFFFFFFFFFFF })]

/-- Then the mode of the root says file, and its qid directory. -/
theorem wstat_root :
    ∃ s, Conc.exec Service.step .calm chmodsRoot = some s ∧
      (s.host.store.node 0).info.mode &&& dmdir = 0 ∧
      (s.host.store.node 0).info.qid.type &&& qtdir ≠ 0 ∧ ¬ s.host.store.OneKind 0 := by
  obtain ⟨s, hrun, hmode, htype⟩ : ∃ s, Conc.exec Service.step .calm chmodsRoot = some s ∧
      (s.host.store.node 0).info.mode = 0o755 ∧ (s.host.store.node 0).info.qid.type = qtdir :=
    ⟨_, rfl, rfl, rfl⟩
  have hzero : (s.host.store.node 0).info.mode &&& dmdir = 0 := by
    rw [hmode]
    decide
  have hdir : (s.host.store.node 0).info.qid.type &&& qtdir ≠ 0 := by
    rw [htype]
    decide
  exact ⟨s, hrun, hzero, hdir, fun h => h.mode.mpr hdir hzero⟩

end P9p.Ramfs
