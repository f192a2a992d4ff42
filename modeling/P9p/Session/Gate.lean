/-
# Attaching without authentication

A file system that requires authentication expects its `Attach` to be called
with an `AuthFile` of its own that reports `Success`.  The session asks for one
only if the request names an `afid`, and takes any open `File` that happens to
have the methods of an `AuthFile`.  So there are two ways past the check:

    afid is NOFID                      (`attach_unchecked`)
    afid is an ordinary fid, its File an AuthFile with Success

**Otherwise nobody gets in.**  In a run in which neither occurs, `Attach` of
the file system is not called at all: the files that `Auth` returned are out of
reach (`P9p.Session.Handshake`), so the check refuses everyone
(`attachGuarded`).
-/
import P9p.Session.Handshake
import P9p.Session.Routine

namespace P9p.Session

open Conc

variable {c : Cmd}

/-! ## The property -/

/-- By the events of `log`, thread `t` may call `Attach` with `af`: its request
has an `afid` made by an `Auth`, and the file of that `Auth` is `af` and has
reported success. -/
def Vouched (log : List Event) (t : Nat) (uname aname : Bytes) (af : Option File) : Prop :=
  ∃ fid afid ref g, .invoked t (.attach fid afid uname aname) ∈ log ∧ af = some g ∧
    Authorized log afid ref g ∧ .leave t (.success g) true ∈ log

/-- Every call of `Attach` was vouched for by what came before it. -/
def AttachGuarded (log : List Event) : Prop :=
  ∀ before after t uname aname af,
    log = before ++ .enter t (.attach uname aname af) :: after → Vouched before t uname aname af

/-- `Attach` without an `afid`. -/
def Op.isOpenAttach : Op → Bool
  | attach _ afid _ _ => afid = noFid
  | _ => false

def Event.startsOpenAttach (t : Nat) : Event → Bool
  | invoked t' op => t' = t ∧ op.isOpenAttach
  | _ => false

def Event.returnsAuthFile (g : File) : Event → Bool
  | leave _ c r => c.newAuthFile r = some g
  | _ => false

def Env.success (env : Env) (g : File) : Bool := env (.success g)

/-- The condition on a command: no `Attach` without an `afid` gets a fid that is
free, and no file that is not from `Auth` reports success. -/
def Screened (s : Store) (t : Nat) : Cmd → Env → Prop
  | .storeNew fid, _ => (∃ ev ∈ s.log, ev.startsOpenAttach t) → s.refs fid ≠ none
  | .leave (.success g), env => env.success g = true → ∃ ev ∈ s.log, ev.returnsAuthFile g
  | _, _ => True

def ScreenedThread (s : Store) (t : Nat) (env : Env) : Option (M Ret) → Prop
  | some (.cmd c _) => Screened s t c env
  | _ => True

def ScreenedStep (s : State) : Sched Op Env → Prop
  | .invoke _ => True
  | .run t env => ScreenedThread s.store t env s.threads[t]?

instance (s : Store) (t : Nat) (c : Cmd) (env : Env) : Decidable (Screened s t c env) :=
  match c with
  | .storeNew fid =>
      inferInstanceAs (Decidable ((∃ ev ∈ s.log, ev.startsOpenAttach t) → s.refs fid ≠ none))
  | .leave (.success g) =>
      inferInstanceAs (Decidable (env.success g = true → ∃ ev ∈ s.log, ev.returnsAuthFile g))
  | .load _ | .loadAndDelete _ | .delete _ | .lock _ | .unlock _ | .getEnt _ | .setEnt _ _
  | .getFile _ | .setFile _ _ | .getMode _ | .setMode _ _ | .enter _ => isTrue trivial
  | .leave .requireAuth | .leave (.auth _ _) | .leave (.attach _ _ _) | .leave (.qid _)
  | .leave (.openDir _) | .leave (.walk _ _) | .leave (.create _ _ _ _) | .leave (.open _ _)
  | .leave (.remove _) | .leave (.clunk _) | .leave (.stat _) | .leave (.wstat _ _)
  | .leave (.read _ _ _) | .leave (.write _ _ _) | .leave (.ioUnit _) => isTrue trivial

instance (s : Store) (t : Nat) (env : Env) (p : Option (M Ret)) :
    Decidable (ScreenedThread s t env p) :=
  match p with
  | some (.cmd c _) => inferInstanceAs (Decidable (Screened s t c env))
  | some (.ret _) | some .crash | none => isTrue trivial

instance (s : State) (a : Sched Op Env) : Decidable (ScreenedStep s a) :=
  match a with
  | .invoke _ => isTrue trivial
  | .run t env => inferInstanceAs (Decidable (ScreenedThread s.store t env s.threads[t]?))

/-! ## The commands of a thread -/

/-- What a thread has to show: that it runs an `Attach` without an `afid`, that
it has stored an `SFid`, the file it asks for `Success`, and the answer. -/
structure Pass where
  unchecked : Bool
  stored : Bool
  asked : Option File
  cleared : Bool

namespace Pass

def blank : Pass := ⟨false, false, none, false⟩

def begin (op : Op) : Pass := { blank with unchecked := op.isOpenAttach }

def pre (o : Pass) : Cmd → Prop
  | .enter (.attach _ _ _) => o.unchecked ∧ o.stored ∨ o.cleared
  | .leave (.success g) => o.asked = some g
  | _ => True

def post (o : Pass) : (c : Cmd) → c.Res → Pass → Prop
  | .storeNew _, some _, o' => o' = { o with stored := true }
  | .enter (.success g), _, o' => o' = { o with asked := some g }
  | .leave (.success _), ok, o' => o' = { o with cleared := ok }
  | _, _, o' => o' = o

end Pass

/-- Is the command allowed only to a thread that has a pass? -/
def Cmd.isGated : Cmd → Bool
  | .enter (.attach _ _ _) | .leave (.success _) => true
  | _ => false

variable {o : Pass}

theorem Pass.pre_of_not_isGated (h : c.isGated = false) : o.pre c := by
  unfold Cmd.isGated at h
  unfold Pass.pre
  split <;> simp_all

/-! ## The other operations -/

/-- The program issues no gated command. -/
abbrev Apart {α : Type} (p : M α) : Prop := p.Only fun c => c.isGated = false

section Apart

variable {α : Type}

theorem Routine.apart {p : M α} (h : Routine p) : Apart p := by
  refine h.mono fun c hc => ?_
  unfold Cmd.isGated
  split
  · cases hc
  · cases hc
  · rfl

theorem issue_apart (h : c.isGated = false) : Apart (issue c) := ⟨h, fun _ => trivial⟩

theorem call_apart {c : Call} (henter : (Cmd.enter c).isGated = false)
    (hleave : (Cmd.leave c).isGated = false) : Apart (call c) :=
  (issue_apart henter).bind fun _ => issue_apart hleave

theorem deferUnlock_apart {ref : Nat} {body : M α} (h : Apart body) :
    Apart (deferUnlock ref body) :=
  h.bind fun _ => (issue_apart rfl).bind fun _ => trivial

theorem getRef_apart (fid : Fid) : Apart (getRef fid) := by
  unfold getRef
  split
  · trivial
  · refine (issue_apart rfl).bind ?_
    rintro (_ | ref)
    · trivial
    · refine (issue_apart rfl).bind fun _ => (issue_apart rfl).bind ?_
      rintro (_ | d)
      · exact (issue_apart rfl).bind fun _ => trivial
      · trivial

theorem withRef_apart {fid : Fid} {fail : Err → Ret} {body : Nat → M Ret}
    (h : ∀ ref, Apart (body ref)) : Apart (withRef fid fail body) := by
  refine (getRef_apart fid).bind ?_
  rintro (err | ref)
  · trivial
  · exact deferUnlock_apart (h ref)

theorem delRef_apart (fid : Fid) (remove : Bool) : Apart (delRef fid remove) := by
  refine (issue_apart rfl).bind ?_
  rintro (_ | ref)
  · trivial
  · refine (issue_apart rfl).bind fun _ => deferUnlock_apart ((issue_apart rfl).bind ?_)
    rintro (_ | d)
    · trivial
    · exact (delRefAction_routine ref remove).apart

theorem walk_apart (fid newfid : Fid) (names : List Bytes) : Apart (walk fid newfid names) := by
  unfold walk
  split
  · trivial
  · refine (getRef_apart fid).bind ?_
    rintro (err | ref)
    · trivial
    · refine (walkRef_routine fid newfid).apart.bind ?_
      rintro (err | newref)
      · exact (walkCleanup_routine newfid ref none).apart.bind fun _ => trivial
      · exact (walkLocked_routine ref newref names).apart.bind fun p =>
          (walkCleanup_routine newfid p.2.1 p.2.2).apart.bind fun _ => trivial

theorem transfer_apart {fid : Fid} {refuses : Flag → Bool} {denied : Err}
    {io : File → M (Int × Option Err)} (hio : ∀ f, Apart (io f)) :
    Apart (transfer fid refuses denied io) := by
  refine withRef_apart fun ref => (issue_apart rfl).bind ?_
  rintro (_ | f)
  · trivial
  · refine (issue_apart rfl).bind fun mode => ?_
    show Apart (if refuses mode then _ else _)
    split
    · trivial
    · exact (file_routine ref).apart.bind fun f => (hio f).bind fun _ => trivial

theorem open_apart (fid : Fid) (mode : Flag) : Apart («open» fid mode) :=
  withRef_apart fun ref => (open_routine ref mode).apart

theorem createLocked_apart (ref : Nat) (parent : Fid) (name : Bytes) (perm : UInt32)
    (mode : Flag) : Apart (createLocked ref parent name perm mode) := by
  refine (ent_routine ref).apart.bind fun d => (isDir_routine d).apart.bind ?_
  rintro (_ | _)
  · trivial
  · refine (ent_routine ref).apart.bind fun d => (call_apart rfl rfl).bind ?_
    rintro ⟨e, f, err⟩
    dsimp only
    cases created e f err with
    | error err => trivial
    | ok p =>
        refine (isDir_routine p.1).apart.bind ?_
        rintro (_ | _)
        · exact (replaceEnt_routine ref p.1 p.2 mode).apart
        · have hget : Routine (pure p.1 : M Nat) := trivial
          refine (openEnt_routine hget mode).apart.bind ?_
          rintro (err | f)
          · exact (delRef_apart parent false).bind fun _ => trivial
          · exact (replaceEnt_routine ref p.1 f mode).apart

theorem create_apart (parent : Fid) (name : Bytes) (perm : UInt32) (mode : Flag) :
    Apart (create parent name perm mode) := by
  unfold create
  split
  · trivial
  · exact withRef_apart fun ref => createLocked_apart ref parent name perm mode

end Apart

/-! ## Attach -/

/-- `p` issues gated commands only with a pass for them. -/
abbrev Passes {α : Type} (Q : α → Pass → Prop) (p : M α) (o : Pass) : Prop :=
  Safe Pass.pre Pass.post Q p o

theorem Apart.passes {α : Type} {p : M α} (h : Apart p) (o : Pass) : Passes (fun _ _ => True) p o :=
  h.safe (fun _ _ => Pass.pre_of_not_isGated) o

theorem deferUnlock_passes {α : Type} {ref : Nat} {body : M α}
    (h : Passes (fun _ _ => True) body o) : Passes (fun _ _ => True) (deferUnlock ref body) o := by
  refine h.bind fun a o' _ => ?_
  have hrest : Apart (do issue (.unlock ref); return a) := (issue_apart rfl).bind fun _ => trivial
  exact hrest.passes o'

theorem attachWith_passes (ho : o.unchecked ∨ o.cleared) (fid : Fid) (uname aname : Bytes)
    (af : Option File) : Passes (fun _ _ => True) (attachWith fid uname aname af) o := by
  have hnew : Passes (fun r o' => r.toBool → o'.unchecked ∧ o'.stored ∨ o'.cleared) (newRef fid)
      o := by
    unfold newRef
    split
    · exact nofun
    · refine Safe.cmd trivial ?_
      rintro (_ | ref) o' hpost
      · exact nofun
      · cases hpost
        exact fun _ => ho.imp (⟨·, rfl⟩) id
  refine hnew.bind ?_
  rintro (err | ref) o' ho'
  · trivial
  · refine deferUnlock_passes (Safe.cmd (ho' rfl) fun _ o' _ => ?_)
    refine Prog.Only.safe ((issue_apart rfl).bind ?_) (fun _ _ => Pass.pre_of_not_isGated) o'
    rintro ⟨e, _ | err⟩
    · refine (issue_apart rfl).bind fun _ => ?_
      cases e with
      | none => trivial
      | some d => exact (call_apart rfl rfl).bind fun _ => trivial
    · exact (issue_apart rfl).bind fun _ => trivial

theorem attachFile_passes (fid : Fid) (aref : Nat) (uname aname : Bytes) (o : Pass) :
    Passes (fun _ _ => True) (attachFile fid aref uname aname) o := by
  refine deferUnlock_passes (Safe.cmd trivial ?_)
  rintro (_ | ⟨id, _ | _ | _⟩) o' -
  · trivial
  · trivial
  · have hcall : Passes (fun ok o' => o'.cleared = ok) (call (.success ⟨id, .auth⟩)) o' := by
      refine Safe.cmd trivial ?_
      rintro _ _ rfl
      refine Safe.issue rfl ?_
      rintro ok _ rfl
      rfl
    refine hcall.bind ?_
    rintro (_ | _) o' ho'
    · trivial
    · exact attachWith_passes (Or.inr ho') fid uname aname _
  · trivial

theorem attach_passes (fid afid : Fid) (uname aname : Bytes) :
    Passes (fun _ _ => True) (attach fid afid uname aname)
      (Pass.begin (.attach fid afid uname aname)) := by
  unfold attach
  split
  · rename_i hafid
    exact attachWith_passes (Or.inl (decide_eq_true hafid)) fid uname aname none
  · refine ((getRef_apart afid).passes _).bind ?_
    rintro (err | aref) o -
    · trivial
    · refine Safe.cmd trivial ?_
      rintro (_ | f) o' -
      · trivial
      · exact attachFile_passes fid aref uname aname o'

theorem Op.prog_passes (op : Op) : Passes (fun _ _ => True) op.prog (Pass.begin op) := by
  cases op with
  | auth afid uname aname => exact (auth_routine afid uname aname).apart.passes _
  | attach fid afid uname aname => exact attach_passes fid afid uname aname
  | clunk fid => exact ((delRef_apart fid false).passes _).bind fun _ _ _ => trivial
  | remove fid => exact ((delRef_apart fid true).passes _).bind fun _ _ _ => trivial
  | walk fid newfid names => exact (walk_apart fid newfid names).passes _
  | read fid len offset => exact (transfer_apart fun f => call_apart rfl rfl).passes _
  | write fid p offset => exact (transfer_apart fun f => call_apart rfl rfl).passes _
  | «open» fid mode => exact (open_apart fid mode).passes _
  | create parent name perm mode => exact (create_apart parent name perm mode).passes _
  | stat fid =>
      refine (withRef_apart fun ref => ?_).passes _
      exact (ent_routine ref).apart.bind fun _ => (call_apart rfl rfl).bind fun _ => trivial
  | wstat fid dir =>
      refine (withRef_apart fun ref => ?_).passes _
      exact (ent_routine ref).apart.bind fun _ => (call_apart rfl rfl).bind fun _ => trivial

/-! ## The invariant -/

variable {s s' : Store} {f : Nat → Ghost} {q : Nat → Pass} {t : Nat}

theorem mem_enter_of_exec {env : Env} {r : c.Res} (h : exec s t c env = some (r, s')) {t' : Nat}
    {c' : Call} (hm : .enter t' c' ∈ s'.log) : .enter t' c' ∈ s.log ∨ t' = t ∧ c = .enter c' := by
  have hold : ∀ {ev : Event}, .enter t' c' ∈ s.log ++ [ev] → .enter t' c' ≠ ev →
      .enter t' c' ∈ s.log := by
    intro ev hm hev
    exact (List.mem_append.mp hm).resolve_right fun h => hev (List.mem_singleton.mp h)
  cases c with
  | storeNew fid =>
      rcases exec_storeNew h with ⟨-, rfl⟩ | ⟨-, -, rfl⟩
      · exact Or.inl hm
      · exact Or.inl (hold hm nofun)
  | loadAndDelete fid =>
      rcases exec_loadAndDelete h with ⟨-, rfl⟩ | ⟨ref, -, -, rfl⟩
      · exact Or.inl hm
      · exact Or.inl (hold hm nofun)
  | lock ref =>
      obtain ⟨-, rfl⟩ := exec_lock h
      exact Or.inl hm
  | unlock ref =>
      obtain rfl := exec_unlock h
      exact Or.inl hm
  | delete fid | leave c =>
      cases h
      exact Or.inl (hold hm nofun)
  | enter c =>
      cases h
      rcases List.mem_append.mp hm with hm | hm
      · exact Or.inl hm
      · cases List.mem_singleton.mp hm
        exact Or.inr ⟨rfl, rfl⟩
  | load fid | getEnt ref | setEnt ref ent | getFile ref | setFile ref file | getMode ref
  | setMode ref mode =>
      cases h
      exact Or.inl hm

/-- Nobody has a pass, and `Attach` was never called. -/
structure Shut (s : Store) (q : Nat → Pass) : Prop where
  unchecked : ∀ t, (q t).unchecked → ∃ ev ∈ s.log, ev.startsOpenAttach t
  stored : ∀ t, (q t).unchecked → (q t).stored = false
  asked : ∀ t g, (q t).asked = some g → .enter t (.success g) ∈ s.log
  cleared : ∀ t, (q t).cleared = false
  none : ∀ t uname aname af, .enter t (.attach uname aname af) ∉ s.log

namespace Shut

theorem init : Shut init fun _ => Pass.blank :=
  ⟨nofun, nofun, nofun, fun _ => rfl, fun _ _ _ _ => List.not_mem_nil⟩

theorem frame (S : Shut s q) (hsub : s.log ⊆ s'.log)
    (hnone : ∀ t uname aname af, .enter t (.attach uname aname af) ∉ s'.log)
    (hunchecked : o.unchecked → ∃ ev ∈ s'.log, ev.startsOpenAttach t)
    (hstored : o.unchecked → o.stored = false)
    (hasked : ∀ g, o.asked = some g → .enter t (.success g) ∈ s'.log)
    (hcleared : o.cleared = false) : Shut s' (Function.update q t o) where
  unchecked := by
    rw [Function.forall_update_iff q fun t o => o.unchecked → ∃ ev ∈ s'.log, ev.startsOpenAttach t]
    refine ⟨hunchecked, fun t' _ h => ?_⟩
    obtain ⟨ev, hm, hev⟩ := S.unchecked t' h
    exact ⟨ev, hsub hm, hev⟩
  stored := by
    rw [Function.forall_update_iff q fun _ o => o.unchecked → o.stored = false]
    exact ⟨hstored, fun t' _ => S.stored t'⟩
  asked := by
    rw [Function.forall_update_iff q fun t o =>
      ∀ g, o.asked = some g → .enter t (.success g) ∈ s'.log]
    exact ⟨hasked, fun t' _ g hg => hsub (S.asked t' g hg)⟩
  cleared := by
    rw [Function.forall_update_iff q fun _ o => o.cleared = false]
    exact ⟨hcleared, fun t' _ => S.cleared t'⟩
  none := hnone

theorem start (S : Shut s q) (op : Op) :
    Shut (start s t op) (Function.update q t (Pass.begin op)) := by
  refine S.frame (List.subset_append_left ..) ?_ ?_ (fun _ => rfl) nofun rfl
  · intro t' uname aname af hm
    rcases List.mem_append.mp hm with hm | hm
    · exact S.none t' uname aname af hm
    · cases List.mem_singleton.mp hm
  · intro hop
    exact ⟨.invoked t op, List.mem_append_right _ (List.mem_singleton_self _),
      decide_eq_true ⟨rfl, hop⟩⟩

/-- A file that is asked for `Success` is not from `Auth`. -/
theorem ordinary (S : Shut s q) (U : Unreached s f) {g : File} (h : (q t).asked = some g) :
    Ordinary s g :=
  U.called t _ g (S.asked t g h) rfl

theorem step (S : Shut s q) (U : Unreached s f) {env : Env} {r : c.Res} (hpre : (q t).pre c)
    (hguard : Screened s t c env) (h : exec s t c env = some (r, s')) :
    ∃ o, (q t).post c r o ∧ Shut s' (Function.update q t o) := by
  have hsub := exec_log h
  have hnone : ∀ t uname aname af, .enter t (.attach uname aname af) ∉ s'.log := by
    intro t' uname aname af hm
    rcases mem_enter_of_exec h hm with hm | ⟨rfl, rfl⟩
    · exact S.none t' uname aname af hm
    · rcases hpre with ⟨hunchecked, hstored⟩ | hcleared
      · cases hstored.symm.trans (S.stored t' hunchecked)
      · cases hcleared.symm.trans (S.cleared t')
  have hstarts : (q t).unchecked → ∃ ev ∈ s'.log, ev.startsOpenAttach t := by
    intro hq
    obtain ⟨ev, hm, hev⟩ := S.unchecked t hq
    exact ⟨ev, hsub hm, hev⟩
  have hasks : ∀ g, (q t).asked = some g → .enter t (.success g) ∈ s'.log :=
    fun g hg => hsub (S.asked t g hg)
  have hkeep : Shut s' (Function.update q t (q t)) :=
    S.frame hsub hnone hstarts (S.stored t) hasks (S.cleared t)
  cases c with
  | storeNew fid =>
      rcases exec_storeNew h with ⟨rfl, -⟩ | ⟨hfree, rfl, -⟩
      · exact ⟨_, rfl, hkeep⟩
      · refine ⟨_, rfl, S.frame hsub hnone hstarts ?_ hasks (S.cleared t)⟩
        exact fun hq => absurd hfree (hguard (S.unchecked t hq))
  | enter c =>
      cases c with
      | success g =>
          refine ⟨_, rfl, S.frame hsub hnone hstarts (S.stored t) ?_ (S.cleared t)⟩
          rintro _ ⟨⟩
          cases h
          exact List.mem_append_right _ (List.mem_singleton_self _)
      | _ => exact ⟨_, rfl, hkeep⟩
  | leave c =>
      cases c with
      | success g =>
          refine ⟨_, rfl, S.frame hsub hnone hstarts (S.stored t) hasks ?_⟩
          cases h
          show env.success g = false
          refine Bool.eq_false_iff.mpr fun htrue => ?_
          obtain ⟨ev, hm, hev⟩ := hguard htrue
          cases ev with
          | leave t' c' r' => exact (S.ordinary U hpre).2 ⟨t', c', r', hm, of_decide_eq_true hev⟩
          | _ => cases hev
      | _ => exact ⟨_, rfl, hkeep⟩
  | _ => exact ⟨_, rfl, hkeep⟩

end Shut

/-! ## Every run -/

/-- The discipline of `P9p.Session.Handshake`, together with the passes. -/
def gate : Protocol exec start Op.prog (Ghost × Pass) where
  idle := (Ghost.idle, Pass.blank)
  begin op := (Ghost.begin op, Pass.begin op)
  pre o c := o.1.pre c ∧ o.2.pre c
  post o c r o' := o.1.post c r o'.1 ∧ o.2.post c r o'.2
  inv s f := seclusion.inv s (Prod.fst ∘ f) ∧ Shut s (Prod.snd ∘ f)
  guard := Screened
  start_inv := by
    intro s f t op h ht
    rw [Function.comp_update, Function.comp_update]
    exact ⟨seclusion.start_inv op h.1 (congrArg Prod.fst ht), h.2.start op⟩
  exec_inv := by
    intro s s' f t c env r h hpre hguard hexec
    obtain ⟨o, hpost, hinv⟩ := seclusion.exec_inv h.1 hpre.1 trivial hexec
    obtain ⟨o', hpost', hshut⟩ := h.2.step h.1.2.2 hpre.2 hguard hexec
    refine ⟨(o, o'), ⟨hpost, hpost'⟩, ?_⟩
    rw [Function.comp_update, Function.comp_update]
    exact ⟨hinv, hshut⟩
  safe op := ((Op.prog_safe op).prod op.prog_passes).mono fun _ _ _ => trivial

/-- In every run whose steps are all screened, every call of `Attach` was
vouched for. -/
theorem attachGuarded (acts : List (Sched Op Env)) {s : State}
    (hg : Guarded step ScreenedStep initial acts)
    (hrun : Conc.exec step initial acts = some s) : AttachGuarded s.store.log := by
  have hg : Guarded step gate.Admits initial acts := hg.mono fun s a h => by
    cases a with
    | invoke op => trivial
    | run t env =>
        intro c k ht
        rw [ScreenedStep, ht] at h
        exact h
  obtain ⟨f, hf⟩ := gate.sound
    ⟨⟨Locks.idle init, Records.init init rfl, Unreached.init init rfl fun _ => rfl⟩, Shut.init⟩
    acts hg hrun
  intro before after t uname aname af hlog
  refine absurd ?_ (hf.inv.2.none t uname aname af)
  rw [hlog]
  exact List.mem_append_right _ List.mem_cons_self

/-- After `Auth` of fid 1, an `Attach` of fid 1 without an `afid`, and one of
fid 2 whose `afid` is 1. -/
def refusedAttaches : List (Sched Op Env) :=
  authRun ++ [.invoke (.attach 1 noFid [] [])] ++ turns 1 1 agreeable ++
    [.invoke (.attach 2 1 [] [])] ++ turns 2 4 agreeable

theorem attachGuarded_refusedAttaches :
    ∃ s, Conc.exec step initial refusedAttaches = some s ∧
      s.threads = [.ret (.qid ⟨qtauth, 0, 0⟩ none), .ret (.qid noQid (some .dupfid)),
        .ret (.qid noQid (some .unknownfid))] ∧ AttachGuarded s.store.log :=
  ⟨_, rfl, rfl, attachGuarded refusedAttaches (by decide +kernel) rfl⟩

/-- `Attach` of fid 1 without an `afid`. -/
def openAttach : List (Sched Op Env) := .invoke (.attach 1 noFid [] []) :: turns 0 7 agreeable

/-- The file system requires authentication, there was none, and fid 1 is
attached. -/
theorem attach_unchecked :
    (agreeable .requireAuth : Bool) = true ∧
    ∃ s, Conc.exec step initial openAttach = some s ∧
      s.threads = [.ret (.qid ⟨qtdir, 0, 0⟩ none)] ∧ s.store.refs 1 = some 0 ∧
      (s.store.sfid 0).ent = some 0 ∧ ¬ AttachGuarded s.store.log := by
  refine ⟨rfl, _, rfl, rfl, rfl, rfl, fun h => ?_⟩
  obtain ⟨fid, afid, ref, g, -, haf, -⟩ := h (_ :: _ :: []) _ 0 [] [] none rfl
  cases haf

end P9p.Session
