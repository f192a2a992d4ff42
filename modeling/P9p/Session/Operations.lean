/-
# The operations keep to the discipline

One lemma for each operation and for each part of it, following the code:

    auth, attach      newRef, a call, and Delete or a link
    clunk, remove     delRef
    walk              with and without a new fid, and the deferred cleanup
    read, write       one lemma, `transfer_keeps`
    open, create      openEnt, and for Create the rollback
    stat, wstat       a call

`Op.prog_keeps` collects them: every operation keeps to the discipline and
ends with every mutex released, except for one path through `Attach`, which
returns with `aref` locked.
-/
import P9p.Session.Discipline

namespace P9p.Session

open Conc

variable {d newref : Nat} {newfid : Fid} {mode : Flag}

section Operations

variable {o : Ghost} {op : Op} {h : Nat → Slot} {m : Option (Fid × Nat)} {l : Option Nat}
  {ref : Nat}

/-! ## Auth and Attach -/

theorem auth_keeps (afid : Fid) (uname aname : Bytes) :
    Keeps (fun _ o => o.Released) (auth afid uname aname)
      (Ghost.begin (.auth afid uname aname)) := by
  have a := Ghost.At.begin (.auth afid uname aname)
  unfold auth
  split
  · exact a.released
  · refine (call_keeps_plain (c := .requireAuth) a.calling (Ghost.mayCall rfl rfl nofun)
      rfl).bind ?_
    rintro required _ rfl
    split
    · exact a.released
    · refine (withNewRef_keeps a ?_).mono fun _ _ a => a.released
      intro aref _
      have a := a.reserve afid aref
      refine (call_keeps (c := .auth uname aname) a.calling (Ghost.mayCall rfl rfl nofun)).bind ?_
      rintro ⟨afile, err⟩ _ rfl
      have a := a.call (c := .auth uname aname) rfl (afile, err)
      cases err with
      | some err =>
          refine Safe.cmd ⟨a.calling, aref, a.mine⟩ ?_
          rintro _ _ rfl
          exact ⟨none, none, nofun, a.delete⟩
      | none =>
          refine Safe.cmd ⟨a.calling, a.ne_free (Function.update_self ..), ?_⟩ ?_
          · rintro g rfl
            exact Or.inr ⟨rfl, ⟨afid, a.mine⟩, _, a.op, rfl⟩
          · rintro _ _ rfl
            refine ⟨none, some (afid, aref), ?_, a⟩
            rintro p ⟨⟩
            rfl

theorem attachWith_keeps (a : o.At op h none l) (hop : op.isAuth = false) {af : Option File}
    (haf : ∀ f, af = some f → o.usable = some f) (fid : Fid) (uname aname : Bytes) :
    Keeps (fun _ o' => o'.At op h none l) (attachWith fid uname aname af) o := by
  refine withNewRef_keeps a ?_
  intro ref _
  have a := a.reserve fid ref
  refine (call_keeps (c := .attach uname aname af) a.calling (Ghost.mayCall rfl rfl haf)).bind ?_
  rintro ⟨e, err⟩ _ rfl
  have a := a.call (c := .attach uname aname af) rfl (e, err)
  have hne : _ ≠ Slot.free := a.ne_free (Function.update_self ref _ _)
  cases err with
  | some err =>
      refine Safe.cmd ⟨a.calling, ref, a.mine⟩ ?_
      rintro _ _ rfl
      exact ⟨none, none, nofun, a.delete⟩
  | none =>
      cases e with
      | none =>
          exact Safe.cmd ⟨a.calling, hne, nofun⟩ fun _ _ _ => trivial
      | some d =>
          refine Safe.cmd ⟨a.calling, hne, ?_⟩ ?_
          · rintro _ ⟨⟩
            exact ⟨rfl, Or.inr (Or.inr ⟨fid, a.mine, fun _ h' => a.op_eq h' ▸ hop⟩)⟩
          · rintro _ _ rfl
            have a := a.link ref d
            rw [Function.update_idem] at a
            have hd := a.reaches (Function.update_self ref _ _)
            refine (call_keeps_plain a.calling (hd.mayCall rfl rfl rfl) rfl).bind ?_
            rintro q _ rfl
            refine ⟨some d, _, ?_, a⟩
            intro p hp
            obtain ⟨heq, hp⟩ := Option.filter_eq_some_iff.mp hp
            cases heq
            exact absurd rfl (of_decide_eq_true hp)

theorem attachFile_keeps {aref : Nat} (hop : op.isAuth = false)
    (a : o.At op (Function.update noLocks aref (.live (some d))) none l) (fid : Fid)
    (uname aname : Bytes) :
    Keeps (fun _ o' => o'.Released) (attachFile fid aref uname aname) o := by
  have hheld := Function.update_self aref (Slot.live (some d)) noLocks
  have hdone : ∀ {o' : Ghost}, o'.At op (Function.update noLocks aref (.live (some d))) none l →
      o'.calling = none ∧ (∃ e, o'.held aref = .live e) ∧ (o'.unlock aref).Released :=
    fun a => ⟨a.calling, ⟨some d, a.slot hheld⟩, a.unlocked⟩
  refine deferUnlock_keeps (Safe.cmd ⟨a.calling, d, a.slot hheld⟩ ?_)
  rintro f _ rfl
  have a := a.saw f
  rcases f with _ | ⟨id, _ | _ | _⟩
  · exact hdone a
  · exact hdone a
  · refine (call_keeps_plain a.calling (Ghost.mayCall rfl rfl ?_) rfl).bind ?_
    · rintro _ ⟨⟩
      rfl
    · rintro ok _ rfl
      split
      · exact hdone a
      · refine (attachWith_keeps a hop ?_ fid uname aname).mono fun _ _ a => hdone a
        rintro _ ⟨⟩
        rfl
  · exact hdone a

/-- One path of `Attach` returns with `aref` locked. -/
def Op.mayLeak : Op → Prop
  | attach _ afid _ _ => afid ≠ noFid
  | _ => False

theorem attach_keeps (fid afid : Fid) (uname aname : Bytes) :
    Keeps (fun _ o => o.Released ∨ (Op.attach fid afid uname aname).mayLeak)
      (attach fid afid uname aname) (Ghost.begin (.attach fid afid uname aname)) := by
  have a := Ghost.At.begin (.attach fid afid uname aname)
  unfold attach
  split
  · have haf : ∀ f, (none : Option File) = some f →
        (Ghost.begin (.attach fid afid uname aname)).usable = some f := nofun
    exact (attachWith_keeps a rfl haf fid uname aname).mono fun _ _ a => Or.inl a.released
  · rename_i hafid
    refine (getRef_keeps afid a).bind ?_
    rintro (err | aref) o hr
    · exact Or.inl hr
    · obtain ⟨d, a⟩ := hr
      refine Safe.cmd ⟨a.calling, d, a.slot (Function.update_self ..)⟩ ?_
      rintro (_ | f) _ rfl
      · exact Or.inr hafid
      · exact (attachFile_keeps rfl (a.saw _) fid uname aname).mono fun _ _ h => Or.inl h

/-! ## Clunk and Remove -/

theorem clunk_keeps (fid : Fid) :
    Keeps (fun _ o => o.Released) (clunk fid) (Ghost.begin (.clunk fid)) := by
  refine (delRef_keeps (Ghost.At.begin _) (Or.inl rfl) (Or.inl rfl)).bind ?_
  rintro _ o ⟨l, a⟩
  exact a.released

theorem remove_keeps (fid : Fid) :
    Keeps (fun _ o => o.Released) (remove fid) (Ghost.begin (.remove fid)) := by
  refine (delRef_keeps (Ghost.At.begin _) (Or.inr (Or.inl rfl)) (Or.inl rfl)).bind ?_
  rintro _ o ⟨l, a⟩
  exact a.released

/-! ## Walk -/

/-- The outcome of `walkEnt`: the new `Dirent` belongs to the thread. -/
def Walked (op : Op) (h : Nat → Slot) (m : Option (Fid × Nat)) (l : Option Nat) :
    Except Ret (List Qid × Nat) → Ghost → Prop
  | .error _, o => o.At op h m l
  | .ok (_, d), o => o.At op h m l ∧ o.own = some d

theorem walkEnt_keeps {same : Bool} {names : List Bytes} (a : o.At op h m l)
    (hd : h ref = .live (some d)) : Keeps (Walked op h m l) (walkEnt ref same names) o := by
  have hreach := a.reaches hd
  have hwalk := call_keeps a.calling (hreach.mayCall (c := .walk d names) rfl rfl rfl)
  unfold walkEnt
  split
  · split
    · exact a
    · subst names
      refine (ent_keeps a hd).bind ?_
      rintro _ _ ⟨rfl, rfl⟩
      refine hwalk.bind ?_
      rintro ⟨qids, e, err⟩ _ rfl
      have a := a.call (c := .walk d []) rfl (qids, e, err)
      rcases e with _ | d' <;> rcases err with _ | err
      · exact a
      · exact a
      · exact ⟨a, rfl⟩
      · exact a
  · refine (ent_keeps a hd).bind ?_
    rintro _ _ ⟨rfl, rfl⟩
    refine (isDir_keeps a.calling hreach).bind ?_
    rintro dir _ rfl
    split
    · refine (ent_keeps a hd).bind ?_
      rintro _ _ ⟨rfl, rfl⟩
      refine hwalk.bind ?_
      rintro ⟨qids, e, err⟩ _ rfl
      have a := a.call (c := .walk d names) rfl (qids, e, err)
      rcases e with _ | d' <;> rcases err with _ | err
      · exact a
      · exact a
      · dsimp only [ensureNonNil]
        split
        · exact a
        · exact ⟨a, rfl⟩
      · exact a
    · exact a

theorem walkCleanup_none {e : Option Nat} (newfid : Fid)
    (a : o.At op (Function.update noLocks ref (.live e)) m l) :
    Keeps (fun _ o => o.Released) (walkCleanup newfid ref none) o := by
  refine Safe.issue ⟨a.calling, e, a.slot (Function.update_self ..)⟩ ?_
  rintro _ _ rfl
  exact a.unlocked

/-- `Walk` unlocks `ref` and keeps its placeholder. -/
theorem Ghost.At.unlock_ref (hne : newref ≠ ref)
    (a : o.At op (Function.update (Function.update noLocks ref (.live (some d))) newref
      (.live none)) (some (newfid, newref)) l) :
    (o.unlock ref).At op (Function.update noLocks newref (.live none)) (some (newfid, newref))
      l := by
  have ha := a.unlock ref
  have hheld : Function.update (Function.update (Function.update noLocks ref (.live (some d)))
      newref (.live none)) ref .free = Function.update noLocks newref (.live none) := by
    rw [Function.update_comm hne, Function.update_idem]
    exact congrArg (Function.update · newref _) (Function.update_eq_self ref noLocks)
  rwa [hheld, Option.filter_some_pos (by simpa using hne)] at ha

theorem walkCleanup_some (hne : newref ≠ ref)
    (a : o.At op (Function.update (Function.update noLocks ref (.live (some d))) newref
      (.live none)) (some (newfid, newref)) l) :
    Keeps (fun _ o => o.Released) (walkCleanup newfid ref (some newref)) o := by
  have hd : o.held ref = .live (some d) := by
    refine a.slot ?_
    rw [Function.update_of_ne (Ne.symm hne), Function.update_self]
  refine Safe.cmd ⟨a.calling, some d, hd⟩ ?_
  rintro _ _ rfl
  have a := a.unlock_ref hne
  refine Safe.cmd ⟨a.calling, newref, a.mine⟩ ?_
  rintro _ _ rfl
  have a := a.delete
  refine Safe.issue ⟨a.calling, none, a.slot (Function.update_self ..)⟩ ?_
  rintro _ _ rfl
  exact a.unlocked

/-- With its result, `walkLocked` leaves what the deferred function needs. -/
def ReadyForCleanup (newfid : Fid) (x : Ret × Nat × Option Nat) (o : Ghost) : Prop :=
  Keeps (fun _ o => o.Released) (walkCleanup newfid x.2.1 x.2.2) o

theorem walkLocked_keeps_same {names : List Bytes} (newfid : Fid)
    (a : o.At op (Function.update noLocks ref (.live (some d))) none (some ref)) :
    Keeps (ReadyForCleanup newfid) (walkLocked ref none names) o := by
  have hd := Function.update_self ref (Slot.live (some d)) noLocks
  refine (walkEnt_keeps a hd).bind ?_
  rintro (r | ⟨qids, d'⟩) o hr
  · exact walkCleanup_none newfid hr
  · obtain ⟨a, hown⟩ := hr
    dsimp only
    split
    · exact walkCleanup_none newfid a
    · refine (ent_keeps a hd).bind ?_
      rintro _ _ ⟨rfl, rfl⟩
      refine (call_keeps (c := .clunk d) a.calling ⟨?_, ?_, nofun⟩).bind ?_
      · rintro _ ⟨⟩
        exact a.reaches hd
      · intro _
        exact ⟨ref, a.last, a.slot hd⟩
      · rintro r _ rfl
        have a := a.release (c := .clunk d) rfl rfl r
        rw [Function.update_idem] at a
        have hstale := a.slot (Function.update_self ref _ _)
        refine Safe.cmd ⟨a.calling, by rw [hstale]; exact nofun, ?_⟩ ?_
        · rintro _ ⟨⟩
          exact ⟨hown, Or.inl hstale⟩
        rintro _ _ rfl
        have a := a.link ref d'
        rw [Function.update_idem] at a
        exact walkCleanup_none newfid a

theorem walkLocked_keeps_new {names : List Bytes} (hop : op.isAuth = false) (hne : newref ≠ ref)
    (a : o.At op (Function.update (Function.update noLocks ref (.live (some d))) newref
      (.live none)) (some (newfid, newref)) l) :
    Keeps (ReadyForCleanup newfid) (walkLocked ref (some newref) names) o := by
  have hd : Function.update (Function.update noLocks ref (.live (some d))) newref (.live none) ref =
      .live (some d) := by
    rw [Function.update_of_ne (Ne.symm hne), Function.update_self]
  refine (walkEnt_keeps a hd).bind ?_
  rintro (r | ⟨qids, d'⟩) o hr
  · exact walkCleanup_some hne hr
  · obtain ⟨a, hown⟩ := hr
    dsimp only
    split
    · exact walkCleanup_some hne a
    · refine Safe.cmd ⟨a.calling, some d, a.slot hd⟩ ?_
      rintro _ _ rfl
      have a := a.unlock_ref hne
      refine Safe.cmd ⟨a.calling, a.ne_free (Function.update_self ..), ?_⟩ ?_
      · rintro _ ⟨⟩
        exact ⟨hown, Or.inr (Or.inr ⟨newfid, a.mine, fun _ h' => a.op_eq h' ▸ hop⟩)⟩
      · rintro _ _ rfl
        have a := a.link newref d'
        rw [Function.update_idem] at a
        exact walkCleanup_none newfid a

/-- The outcome of `walkRef`. -/
def WalkReserved (o : Ghost) (newfid : Fid) : Except Err (Option Nat) → Ghost → Prop
  | .error _, o' => o' = o
  | .ok none, o' => o' = o
  | .ok (some newref), o' => o.held newref = .free ∧ o' = o.reserve newfid newref

theorem walkRef_keeps (a : o.At op h none l) (fid newfid : Fid) :
    Keeps (WalkReserved o newfid) (walkRef fid newfid) o := by
  unfold walkRef
  split
  · exact rfl
  · refine (newRef_keeps a).bind ?_
    rintro (err | newref) o' hr
    · exact hr
    · exact hr

theorem walk_keeps (fid newfid : Fid) (names : List Bytes) :
    Keeps (fun _ o => o.Released) (walk fid newfid names)
      (Ghost.begin (.walk fid newfid names)) := by
  have a := Ghost.At.begin (.walk fid newfid names)
  have hcleanup : ∀ {x : Ret × Nat × Option Nat} {o : Ghost}, ReadyForCleanup newfid x o →
      Keeps (fun _ o => o.Released) (do walkCleanup newfid x.2.1 x.2.2; return x.1) o :=
    fun h => h.bind fun _ _ h => h
  unfold walk
  split
  · exact a.released
  · refine (getRef_keeps fid a).bind ?_
    rintro (err | ref) o hr
    · exact hr
    · obtain ⟨d, a⟩ := hr
      refine (walkRef_keeps a fid newfid).bind ?_
      rintro (err | _ | newref) o' hr
      · cases hr
        exact hcleanup (x := (.qids [] (some err), ref, none)) (walkCleanup_none newfid a)
      · cases hr
        exact (walkLocked_keeps_same newfid a).bind fun _ _ h => hcleanup h
      · obtain ⟨hfree, rfl⟩ := hr
        have hne : newref ≠ ref := by
          rintro rfl
          rw [a.slot (Function.update_self ..)] at hfree
          cases hfree
        exact (walkLocked_keeps_new rfl hne (a.reserve newfid newref)).bind fun _ _ h => hcleanup h

/-! ## Read and Write -/

theorem transfer_keeps {refuses : Flag → Bool} {denied : Err} {io : File → M (Int × Option Err)}
    (hio : ∀ (o : Ghost) (f : File), o.calling = none → o.usable = some f →
      Keeps (fun _ o' => o' = o) (io f) o) (fid : Fid) :
    Keeps (fun _ o => o.Released) (transfer fid refuses denied io) (Ghost.begin op) := by
  refine withRef_keeps fid ?_
  intro ref d o a
  have hd := Function.update_self ref (Slot.live (some d)) noLocks
  refine Safe.cmd ⟨a.calling, d, a.slot hd⟩ ?_
  rintro (_ | f) _ rfl
  · exact ⟨some d, _, _, a.saw none⟩
  · have a := a.saw (some f)
    refine Safe.cmd ⟨a.calling, a.ne_free hd⟩ ?_
    rintro mode _ rfl
    split
    · exact ⟨some d, _, _, a⟩
    · refine (file_keeps a hd).bind ?_
      rintro g _ rfl
      have a := a.saw (some g)
      refine (hio _ g a.calling rfl).bind ?_
      rintro ⟨n, err⟩ _ rfl
      exact ⟨some d, _, _, a⟩

theorem read_keeps (fid : Fid) (len : Nat) (offset : Int64) :
    Keeps (fun _ o => o.Released) (read fid len offset)
      (Ghost.begin (.read fid len offset)) := by
  refine transfer_keeps ?_ fid
  intro o f hc hu
  refine call_keeps_plain hc (Ghost.mayCall rfl rfl ?_) rfl
  rintro _ ⟨⟩
  exact hu

theorem write_keeps (fid : Fid) (p : Bytes) (offset : Int64) :
    Keeps (fun _ o => o.Released) (write fid p offset) (Ghost.begin (.write fid p offset)) := by
  refine transfer_keeps ?_ fid
  intro o f hc hu
  refine call_keeps_plain hc (Ghost.mayCall rfl rfl ?_) rfl
  rintro _ ⟨⟩
  exact hu

/-! ## Open and Create -/

/-- The outcome of `openEnt` for a thread with ghost value `o` before. -/
def Opened (o : Ghost) (op : Op) (h : Nat → Slot) (m : Option (Fid × Nat)) (l : Option Nat) :
    Except Err File → Ghost → Prop
  | .error _, o' => o'.At op h m l ∧ (op.isCreate → o'.failed)
  | .ok f, o' => o'.At op h m l ∧ o'.own = o.own ∧ o'.usable = some f

/-- The `Ent` of a local variable. -/
theorem pure_keeps (d : Nat) : Keeps (fun d' o' => d = d' ∧ o' = o) (pure d) o := ⟨rfl, rfl⟩

theorem openEnt_keeps {getEnt : M Nat} (a : o.At op h m l) (hd : o.Reaches d)
    (hget : Keeps (fun d' o' => d = d' ∧ o' = o) getEnt o) :
    Keeps (Opened o op h m l) (openEnt getEnt mode) o := by
  have hfailed : ∀ {c : Call} {r : c.Res}, c.openFails r = true → op.isCreate →
      ((o.enter c).leave c r).failed := by
    intro c r hf hop
    have hop' : (o.enter c).op = some op := a.op
    simp only [Ghost.leave, hop', Option.any_some, hop, hf, Bool.and_self, Bool.or_true]
  refine hget.bind ?_
  rintro _ _ ⟨rfl, rfl⟩
  refine (isDir_keeps a.calling hd).bind ?_
  rintro dir _ rfl
  split
  · refine hget.bind ?_
    rintro _ _ ⟨rfl, rfl⟩
    refine (call_keeps (c := .openDir d) a.calling (hd.mayCall rfl rfl rfl)).bind ?_
    rintro ⟨dirs, err⟩ _ rfl
    have a := a.call (c := .openDir d) rfl (dirs, err)
    cases err with
    | some err => exact ⟨a, hfailed rfl⟩
    | none => exact ⟨a, rfl, rfl⟩
  · refine hget.bind ?_
    rintro _ _ ⟨rfl, rfl⟩
    refine (call_keeps (c := .open d mode) a.calling (hd.mayCall rfl rfl rfl)).bind ?_
    rintro ⟨f, err⟩ _ rfl
    have a := a.call (c := .open d mode) rfl (f, err)
    rcases f with _ | f <;> rcases err with _ | err
    · exact ⟨a, hfailed rfl⟩
    · exact ⟨a, hfailed rfl⟩
    · exact ⟨a, rfl, rfl⟩
    · exact ⟨a, hfailed rfl⟩

theorem openLocked_keeps (a : o.At op h m l) (hd : h ref = .live (some d)) :
    Keeps (fun _ o' => o'.At op h m l) (openLocked ref mode) o := by
  refine Safe.cmd ⟨a.calling, d, a.slot hd⟩ ?_
  rintro (_ | f) _ rfl
  · have a := a.saw none
    refine (openEnt_keeps a (a.reaches hd) (ent_keeps a hd)).bind ?_
    rintro (err | f) o' hr
    · exact hr.1
    · obtain ⟨a, -, hu⟩ := hr
      refine Safe.cmd ⟨a.calling, a.ne_free hd, ?_⟩ ?_
      · rintro _ ⟨⟩
        exact Or.inl hu
      · rintro _ _ rfl
        refine Safe.cmd ⟨a.calling, a.ne_free hd⟩ ?_
        rintro _ _ rfl
        exact a
  · exact a.saw (some f)

theorem open_keeps (fid : Fid) (mode : Flag) :
    Keeps (fun _ o => o.Released) (Session.open fid mode) (Ghost.begin (.open fid mode)) := by
  refine withRef_keeps fid ?_
  intro ref d o a
  have hd := Function.update_self ref (Slot.live (some d)) noLocks
  refine (openLocked_keeps a hd).bind ?_
  rintro (_ | err) o a
  · refine (ent_keeps a hd).bind ?_
    rintro _ _ ⟨rfl, rfl⟩
    refine (call_keeps_plain a.calling ((a.reaches hd).mayCall rfl rfl rfl) rfl).bind ?_
    rintro q _ rfl
    refine (file_keeps a hd).bind ?_
    rintro f _ rfl
    have a := a.saw (some f)
    refine (ioUnit_keeps a.calling rfl).bind ?_
    rintro n _ rfl
    exact ⟨some d, _, _, a⟩
  · exact ⟨some d, _, _, a⟩

theorem created_eq_ok {e : Option Nat} {f : Option File} {err : Option Err} {p : Nat × File}
    (h : created e f err = .ok p) : e = some p.1 ∧ f = some p.2 := by
  rcases e with _ | d <;> rcases f with _ | f <;> rcases err with _ | err <;> cases h
  exact ⟨rfl, rfl⟩

theorem replaceEnt_keeps {d' : Nat} {f : File}
    (a : o.At op (Function.update noLocks ref (.live (some d))) none l) (hown : o.own = some d')
    (hu : o.usable = some f) :
    Keeps (fun _ o' => ∃ e m l, o'.At op (Function.update noLocks ref (.live e)) m l)
      (replaceEnt ref d' f mode) o := by
  have hheld : o.held ref ≠ .free := a.ne_free (Function.update_self ..)
  refine Safe.cmd ⟨a.calling, hheld, nofun⟩ ?_
  rintro _ _ rfl
  refine Safe.cmd ⟨a.calling, hheld⟩ ?_
  rintro _ _ rfl
  refine Safe.cmd ⟨a.calling, hheld, ?_⟩ ?_
  · rintro _ ⟨⟩
    exact ⟨hown, Or.inr (Or.inl ⟨d, a.slot (Function.update_self ..)⟩)⟩
  rintro _ _ rfl
  have a := a.link ref d'
  rw [Function.update_idem] at a
  have hheld := a.ne_free (Function.update_self ref _ _)
  refine Safe.cmd ⟨a.calling, hheld, ?_⟩ ?_
  · rintro _ ⟨⟩
    exact Or.inl hu
  rintro _ _ rfl
  refine Safe.cmd ⟨a.calling, hheld⟩ ?_
  rintro _ _ rfl
  have hd' := Function.update_self ref (Slot.live (some d')) noLocks
  refine (ent_keeps a hd').bind ?_
  rintro _ _ ⟨rfl, rfl⟩
  refine (call_keeps_plain a.calling ((a.reaches hd').mayCall rfl rfl rfl) rfl).bind ?_
  rintro q _ rfl
  refine (ioUnit_keeps a.calling hu).bind ?_
  rintro n _ rfl
  exact ⟨some d', _, _, a⟩

theorem createLocked_keeps (hop : op.isCreate)
    (a : o.At op (Function.update noLocks ref (.live (some d))) none (some ref)) (parent : Fid)
    (name : Bytes) (perm : UInt32) (mode : Flag) :
    Keeps (fun _ o' => ∃ e m l, o'.At op (Function.update noLocks ref (.live e)) m l)
      (createLocked ref parent name perm mode) o := by
  have hd := Function.update_self ref (Slot.live (some d)) noLocks
  refine (ent_keeps a hd).bind ?_
  rintro _ _ ⟨rfl, rfl⟩
  refine (isDir_keeps a.calling (a.reaches hd)).bind ?_
  rintro dir _ rfl
  split
  · refine (ent_keeps a hd).bind ?_
    rintro _ _ ⟨rfl, rfl⟩
    refine (call_keeps (c := .create d name perm mode) a.calling
      ((a.reaches hd).mayCall rfl rfl rfl)).bind ?_
    rintro ⟨e, f, err⟩ _ rfl
    have a := a.call (c := .create d name perm mode) rfl (e, f, err)
    dsimp only
    cases hcr : created e f err with
    | error err => exact ⟨some d, _, _, a⟩
    | ok p =>
        obtain ⟨rfl, rfl⟩ := created_eq_ok hcr
        refine (isDir_keeps a.calling (Or.inl rfl)).bind ?_
        rintro dir _ rfl
        split
        · refine (openEnt_keeps a (Or.inl rfl) (pure_keeps p.1)).bind ?_
          rintro (err | f) o' hr
          · obtain ⟨a, hf⟩ := hr
            refine (delRef_keeps a (Or.inr (Or.inr (hf hop))) (Or.inr (hf hop))).bind ?_
            rintro _ o' ⟨l, a⟩
            exact ⟨some d, _, _, a⟩
          · obtain ⟨a, hown, hu⟩ := hr
            exact replaceEnt_keeps a hown hu
        · exact replaceEnt_keeps a rfl rfl
  · exact ⟨some d, _, _, a⟩

theorem create_keeps (parent : Fid) (name : Bytes) (perm : UInt32) (mode : Flag) :
    Keeps (fun _ o => o.Released) (create parent name perm mode)
      (Ghost.begin (.create parent name perm mode)) := by
  unfold create
  split
  · exact (Ghost.At.begin _).released
  · refine withRef_keeps parent ?_
    intro ref d o a
    exact createLocked_keeps rfl a parent name perm mode

/-! ## Stat and WStat -/

theorem stat_keeps (fid : Fid) :
    Keeps (fun _ o => o.Released) (stat fid) (Ghost.begin (.stat fid)) := by
  refine withRef_keeps fid ?_
  intro ref d o a
  have hd := Function.update_self ref (Slot.live (some d)) noLocks
  refine (ent_keeps a hd).bind ?_
  rintro _ _ ⟨rfl, rfl⟩
  refine (call_keeps_plain (c := .stat d) a.calling ((a.reaches hd).mayCall rfl rfl rfl)
    rfl).bind ?_
  rintro ⟨dir, err⟩ _ rfl
  exact ⟨some d, _, _, a⟩

theorem wstat_keeps (fid : Fid) (dir : Dir) :
    Keeps (fun _ o => o.Released) (wstat fid dir) (Ghost.begin (.wstat fid dir)) := by
  refine withRef_keeps fid ?_
  intro ref d o a
  have hd := Function.update_self ref (Slot.live (some d)) noLocks
  refine (ent_keeps a hd).bind ?_
  rintro _ _ ⟨rfl, rfl⟩
  refine (call_keeps_plain (c := .wstat d dir) a.calling ((a.reaches hd).mayCall rfl rfl rfl)
    rfl).bind ?_
  rintro err _ rfl
  exact ⟨some d, _, _, a⟩

end Operations

/-! ## All of them -/

/-- Every operation keeps to the discipline and releases what it has locked,
but for one path through `Attach`. -/
theorem Op.prog_keeps (op : Op) :
    Keeps (fun _ o => o.Released ∨ op.mayLeak) op.prog (Ghost.begin op) := by
  cases op with
  | auth afid uname aname => exact (auth_keeps afid uname aname).mono fun _ _ => Or.inl
  | attach fid afid uname aname => exact attach_keeps fid afid uname aname
  | clunk fid => exact (clunk_keeps fid).mono fun _ _ => Or.inl
  | remove fid => exact (remove_keeps fid).mono fun _ _ => Or.inl
  | walk fid newfid names => exact (walk_keeps fid newfid names).mono fun _ _ => Or.inl
  | read fid len offset => exact (read_keeps fid len offset).mono fun _ _ => Or.inl
  | write fid p offset => exact (write_keeps fid p offset).mono fun _ _ => Or.inl
  | «open» fid mode => exact (open_keeps fid mode).mono fun _ _ => Or.inl
  | create parent name perm mode =>
      exact (create_keeps parent name perm mode).mono fun _ _ => Or.inl
  | stat fid => exact (stat_keeps fid).mono fun _ _ => Or.inl
  | wstat fid dir => exact (wstat_keeps fid dir).mono fun _ _ => Or.inl

/-- The same for any end. -/
theorem Op.prog_safe (op : Op) : Keeps (fun _ _ => True) op.prog (Ghost.begin op) :=
  op.prog_keeps.mono fun _ _ _ => trivial

end P9p.Session
