/-
# What an operation of the session may do

Every property of the session under concurrency rests on the same facts about
the code of a single operation: it reads and writes `ref.Ent` only while it
holds the mutex, it calls a `Dirent` only through an `SFid` it has locked or
when it has just been given it, it deletes only under the fid of its own
placeholder.  They are stated here once, as a discipline of commands.

**Ghost values.**  A thread carries

    op        the operation it runs
    held      for each SFid: free, or locked with a known Ent
    known     the SFid it has looked up
    last      the SFid it locked last
    own       the Dirent a call has returned, until it is linked
    usable    a File it may use
    afile     the AuthFile that Auth has been given
    mine      its placeholder, until it is linked, deleted or unlocked
    calling   the call that is under way
    failed    Create could not open the directory it has made

`pre` says which commands a thread may issue, `post` what becomes of its ghost
value.

**`stale`.**  Between a `Clunk` or `Remove` and the assignment to `ref.Ent`
that follows, the field still holds the released `Dirent`.  The slot is then
`stale`: it may neither be read nor unlocked.

This module has the rules for the commands and for the functions that look up,
insert and delete fids; the operations follow in `Operations`.
-/
import P9p.Session

namespace P9p.Session

open Conc

variable {c : Call}

/-! ## What a call is about -/

namespace Call

/-- The `Dirent` whose method is called. -/
def dirent : Call → Option Nat
  | qid d | openDir d | walk d _ | create d _ _ _ | «open» d _ | remove d | clunk d | stat d
  | wstat d _ => some d
  | _ => none

/-- Does the call release its `Dirent`? -/
def releases : Call → Bool
  | remove _ | clunk _ => true
  | _ => false

/-- The `File` that is called or handed over. -/
def file : Call → Option File
  | read f _ _ | write f _ _ | ioUnit f | success f => some f
  | attach _ _ af => af
  | _ => none

def newEnt : (c : Call) → c.Res → Option Nat
  | attach _ _ _, r => r.1
  | walk _ _, r => r.2.1
  | create _ _ _ _, r => r.1
  | _, _ => none

def newFile : (c : Call) → c.Res → Option File
  | openDir _, r => some r.1
  | create _ _ _ _, r => r.2.1
  | «open» _ _, r => r.1
  | _, _ => none

def newAuthFile : (c : Call) → c.Res → Option File
  | auth _ _, r => r.1
  | _, _ => none

/-- `OpenDir` or `Open` has not given a file that `openLocked` accepts. -/
def openFails : (c : Call) → c.Res → Bool
  | openDir _, r => r.2.isSome
  | «open» _ _, r => (ensureNonNil r.1 r.2).toBool = false
  | _, _ => false

/-- The call returns no handle, and releases none. -/
def plain : Call → Bool
  | requireAuth | qid _ | stat _ | wstat _ _ | read _ _ _ | write _ _ _ | ioUnit _ | success _ =>
      true
  | _ => false

theorem newEnt_answer (c : Call) {n d : Nat} {reply : c.Reply}
    (h : c.newEnt (c.answer n reply) = some d) : d = n := by
  cases c with
  | attach uname aname af =>
      obtain ⟨nonNil, err⟩ := reply
      cases nonNil <;> cases h
      rfl
  | walk d' names =>
      obtain ⟨qids, nonNil, err⟩ := reply
      cases nonNil <;> cases h
      rfl
  | create d' name perm mode =>
      obtain ⟨nonNil, kind, err⟩ := reply
      cases nonNil <;> cases h
      rfl
  | _ => cases h

theorem dirent_of_releases (h : c.releases) : ∃ d, c.dirent = some d := by
  cases c <;> first | exact ⟨_, rfl⟩ | cases h

end Call

def Op.isCreate : Op → Bool
  | create _ _ _ _ => true
  | _ => false

def Op.isAuth : Op → Bool
  | auth _ _ _ => true
  | _ => false

/-! ## Ghost values -/

/-- What a thread knows about the mutex of an `SFid`. -/
inductive Slot where
  | free
  | live (ent : Option Nat)
  | stale
  deriving DecidableEq

structure Ghost where
  op : Option Op
  held : Nat → Slot
  known : Option Nat
  last : Option Nat
  own : Option Nat
  usable : Option File
  afile : Option File
  mine : Option (Fid × Nat)
  calling : Option Call
  failed : Bool

namespace Ghost

def idle : Ghost := ⟨none, fun _ => .free, none, none, none, none, none, none, none, false⟩

def begin (op : Op) : Ghost := { idle with op := some op }

/-- All mutexes are released. -/
def Released (o : Ghost) : Prop := ∀ ref, o.held ref = .free

def set (o : Ghost) (ref : Nat) (slot : Slot) : Ghost :=
  { o with held := Function.update o.held ref slot }

def look (o : Ghost) (ref : Option Nat) : Ghost := { o with known := ref }

def lock (o : Ghost) (ref : Nat) (e : Option Nat) : Ghost :=
  { o.set ref (.live e) with last := some ref }

/-- `LoadOrStore` has stored the placeholder `ref`. -/
def reserve (o : Ghost) (fid : Fid) (ref : Nat) : Ghost :=
  { o.set ref (.live none) with mine := some (fid, ref) }

/-- `ref` is no longer a placeholder. -/
def settle (o : Ghost) (ref : Nat) : Ghost :=
  { o with mine := o.mine.filter fun p => p.2 ≠ ref }

def unlock (o : Ghost) (ref : Nat) : Ghost := (o.set ref .free).settle ref

def link (o : Ghost) (ref d : Nat) : Ghost :=
  { (o.set ref (.live (some d))).settle ref with own := none }

def saw (o : Ghost) (f : Option File) : Ghost := { o with usable := f.or o.usable }

def enter (o : Ghost) (c : Call) : Ghost :=
  { o with
    calling := some c
    held := fun ref => if c.releases ∧ o.last = some ref then .stale else o.held ref }

def leave (o : Ghost) (c : Call) (r : c.Res) : Ghost :=
  { o with
    calling := none
    own := (c.newEnt r).or o.own
    usable := (c.newFile r).or o.usable
    afile := (c.newAuthFile r).or o.afile
    failed := o.failed || (o.op.any Op.isCreate && c.openFails r) }

/-- The thread may call the `Dirent` `d`: it has locked an `SFid` that is linked
to it, or has just been given it. -/
def Reaches (o : Ghost) (d : Nat) : Prop := o.own = some d ∨ ∃ ref, o.held ref = .live (some d)

/-- The thread may issue the call. -/
structure MayCall (o : Ghost) (c : Call) : Prop where
  dirent : ∀ d, c.dirent = some d → o.Reaches d
  release : c.releases → ∃ ref, o.last = some ref ∧ o.held ref = .live c.dirent
  file : ∀ f, c.file = some f → o.usable = some f

/-- The thread may link `ref`: it is linked already, or a placeholder of
`Attach` or `Walk`. -/
def MayLink (o : Ghost) (ref : Nat) : Prop :=
  o.held ref = .stale ∨ (∃ d, o.held ref = .live (some d)) ∨
    ∃ fid, o.mine = some (fid, ref) ∧ ∀ op, o.op = some op → op.isAuth = false

/-- The thread may store `f` in `ref.File`: an `AuthFile` only `Auth`, in its
own placeholder. -/
def MayOpen (o : Ghost) (ref : Nat) (f : File) : Prop :=
  o.usable = some f ∨ o.afile = some f ∧ (∃ fid, o.mine = some (fid, ref)) ∧
    ∃ op, o.op = some op ∧ op.isAuth

def pre (o : Ghost) : Cmd → Prop
  | .load _ => o.calling = none
  | .storeNew fid => o.calling = none ∧ o.mine = none ∧ o.op ≠ none ∧ fid ≠ noFid
  | .loadAndDelete fid =>
      o.calling = none ∧ (o.op = some (.clunk fid) ∨ o.op = some (.remove fid) ∨ o.failed)
  | .delete fid => o.calling = none ∧ ∃ ref, o.mine = some (fid, ref)
  | .lock ref => o.calling = none ∧ o.known = some ref ∧ (o.Released ∨ o.failed)
  | .unlock ref => o.calling = none ∧ ∃ e, o.held ref = .live e
  | .getEnt ref => o.calling = none ∧ ∃ e, o.held ref = .live e
  | .setEnt ref e =>
      o.calling = none ∧ o.held ref ≠ .free ∧ ∀ d, e = some d → o.own = some d ∧ o.MayLink ref
  | .getFile ref => o.calling = none ∧ ∃ d, o.held ref = .live (some d)
  | .setFile ref f => o.calling = none ∧ o.held ref ≠ .free ∧ ∀ g, f = some g → o.MayOpen ref g
  | .getMode ref | .setMode ref _ => o.calling = none ∧ o.held ref ≠ .free
  | .enter c => o.calling = none ∧ o.MayCall c
  | .leave c => o.calling = some c

def post (o : Ghost) : (c : Cmd) → c.Res → Ghost → Prop
  | .load _, r, o' => o' = o.look r
  | .loadAndDelete _, r, o' => o' = o.look r
  | .storeNew fid, some ref, o' =>
      o.held ref = .free ∧ o' = o.reserve fid ref
  | .delete _, _, o' => o' = { o with mine := none }
  | .lock ref, _, o' => o.held ref = .free ∧ ∃ e, o' = o.lock ref e
  | .unlock ref, _, o' => o' = o.unlock ref
  | .getEnt ref, e, o' => o.held ref = .live e ∧ o' = o
  | .setEnt ref none, _, o' => o' = o.set ref (.live none)
  | .setEnt ref (some d), _, o' => o' = o.link ref d
  | .getFile _, f, o' => o' = o.saw f
  | .enter c, _, o' => o' = o.enter c
  | .leave c, r, o' => o' = o.leave c r
  | _, _, o' => o' = o

end Ghost

/-! ## The commands, one by one -/

/-- `p` keeps to the discipline, and `Q` holds at its end. -/
abbrev Keeps {α : Type} (Q : α → Ghost → Prop) (p : M α) (o : Ghost) : Prop :=
  Safe Ghost.pre Ghost.post Q p o

/-- Where a thread is: it runs `op` and is in no call, `h` are its locks, `m` is
its placeholder and `l` the `SFid` it locked last. -/
structure Ghost.At (o : Ghost) (op : Op) (h : Nat → Slot) (m : Option (Fid × Nat))
    (l : Option Nat) : Prop where
  op : o.op = some op
  calling : o.calling = none
  held : o.held = h
  mine : o.mine = m
  last : o.last = l

def noLocks : Nat → Slot := fun _ => .free

namespace Ghost.At

variable {o : Ghost} {op : Op} {h : Nat → Slot} {m : Option (Fid × Nat)} {l : Option Nat}

theorem begin (op : Op) : (Ghost.begin op).At op noLocks none none := ⟨rfl, rfl, rfl, rfl, rfl⟩

theorem slot (a : o.At op h m l) {ref : Nat} {slot : Slot} (hs : h ref = slot) :
    o.held ref = slot :=
  (congrFun a.held ref).trans hs

theorem ne_free (a : o.At op h m l) {ref : Nat} {e : Option Nat} (hs : h ref = .live e) :
    o.held ref ≠ .free := by
  rw [a.slot hs]
  exact nofun

theorem op_eq (a : o.At op h m l) {op' : Op} (h' : o.op = some op') : op = op' :=
  Option.some.inj (a.op.symm.trans h')

theorem released (a : o.At op noLocks m l) : o.Released := fun ref => congrFun a.held ref

theorem call (a : o.At op h m l) (hc : c.releases = false) (r : c.Res) :
    ((o.enter c).leave c r).At op h m l := by
  refine ⟨a.op, rfl, ?_, a.mine, a.last⟩
  funext ref
  simp only [leave, enter, hc, a.held, Bool.false_eq_true, false_and, if_false]

theorem release (a : o.At op h m l) (hc : c.releases) {ref : Nat} (hl : l = some ref) (r : c.Res) :
    ((o.enter c).leave c r).At op (Function.update h ref .stale) m l := by
  refine ⟨a.op, rfl, ?_, a.mine, a.last⟩
  funext ref'
  simp only [leave, enter, hc, a.held, a.last, hl, true_and, Option.some.injEq,
    Function.update_apply, eq_comm]

theorem look (a : o.At op h m l) (ref : Option Nat) : (o.look ref).At op h m l :=
  ⟨a.op, a.calling, a.held, a.mine, a.last⟩

theorem lock (a : o.At op h m l) (ref : Nat) (e : Option Nat) :
    (o.lock ref e).At op (Function.update h ref (.live e)) m (some ref) :=
  ⟨a.op, a.calling, congrArg (Function.update · ref _) a.held, a.mine, rfl⟩

theorem reserve (a : o.At op h m l) (fid : Fid) (ref : Nat) :
    (o.reserve fid ref).At op (Function.update h ref (.live none)) (some (fid, ref)) l :=
  ⟨a.op, a.calling, congrArg (Function.update · ref _) a.held, rfl, a.last⟩

theorem set (a : o.At op h m l) (ref : Nat) (slot : Slot) :
    (o.set ref slot).At op (Function.update h ref slot) m l :=
  ⟨a.op, a.calling, congrArg (Function.update · ref _) a.held, a.mine, a.last⟩

theorem unlock (a : o.At op h m l) (ref : Nat) :
    (o.unlock ref).At op (Function.update h ref .free) (m.filter fun p => p.2 ≠ ref) l :=
  ⟨a.op, a.calling, congrArg (Function.update · ref _) a.held, congrArg (Option.filter _) a.mine,
    a.last⟩

theorem link (a : o.At op h m l) (ref d : Nat) :
    (o.link ref d).At op (Function.update h ref (.live (some d)))
      (m.filter fun p => p.2 ≠ ref) l :=
  ⟨a.op, a.calling, congrArg (Function.update · ref _) a.held, congrArg (Option.filter _) a.mine,
    a.last⟩

theorem saw (a : o.At op h m l) (f : Option File) : (o.saw f).At op h m l :=
  ⟨a.op, a.calling, a.held, a.mine, a.last⟩

theorem delete (a : o.At op h m l) : ({ o with mine := none } : Ghost).At op h none l :=
  ⟨a.op, a.calling, a.held, rfl, a.last⟩

end Ghost.At

theorem Ghost.leave_enter {o : Ghost} (ho : o.calling = none) (hc : c.plain) (r : c.Res) :
    (o.enter c).leave c r = o := by
  obtain ⟨op, held, known, last, own, usable, afile, mine, calling, failed⟩ := o
  cases ho
  cases c <;> simp only [Call.plain, Bool.false_eq_true] at hc <;>
    simp [enter, leave, Call.releases, Call.newEnt, Call.newFile, Call.newAuthFile, Call.openFails]

section Helpers

variable {o : Ghost} {op : Op} {h : Nat → Slot} {m : Option (Fid × Nat)} {l : Option Nat}
  {ref d : Nat}

theorem call_keeps (hc : o.calling = none) (hm : o.MayCall c) :
    Keeps (fun r o' => o' = (o.enter c).leave c r) (call c) o := by
  refine Safe.cmd ⟨hc, hm⟩ ?_
  rintro _ _ rfl
  exact Safe.issue rfl fun _ _ heq => heq

theorem call_keeps_plain (hc : o.calling = none) (hm : o.MayCall c) (hp : c.plain) :
    Keeps (fun _ o' => o' = o) (call c) o :=
  (call_keeps hc hm).mono fun r _ heq => heq.trans (Ghost.leave_enter hc hp r)

/-- A method of the `Dirent` `d` that does not release it. -/
theorem Ghost.Reaches.mayCall (hd : o.Reaches d) (hcd : c.dirent = some d)
    (hr : c.releases = false) (hf : c.file = none) : o.MayCall c := by
  refine ⟨?_, ?_, ?_⟩
  · intro d' h
    rw [hcd] at h
    cases h
    exact hd
  · intro h
    rw [hr] at h
    cases h
  · intro f h
    rw [hf] at h
    cases h

/-- A call that is no method of a `Dirent`. -/
theorem Ghost.mayCall (hcd : c.dirent = none) (hr : c.releases = false)
    (hf : ∀ f, c.file = some f → o.usable = some f) : o.MayCall c := by
  refine ⟨?_, ?_, hf⟩
  · intro d h
    rw [hcd] at h
    cases h
  · intro h
    rw [hr] at h
    cases h

theorem Ghost.At.reaches (a : o.At op h m l) (hd : h ref = .live (some d)) : o.Reaches d :=
  Or.inr ⟨ref, a.slot hd⟩

theorem ent_keeps (a : o.At op h m l) (hd : h ref = .live (some d)) :
    Keeps (fun d' o' => d = d' ∧ o' = o) (ent ref) o := by
  have hd := a.slot hd
  refine Safe.cmd ⟨a.calling, _, hd⟩ ?_
  rintro (_ | d') o' ⟨he, rfl⟩
  · trivial
  · rw [hd] at he
    cases he
    exact ⟨rfl, rfl⟩

theorem file_keeps (a : o.At op h m l) (hd : h ref = .live (some d)) :
    Keeps (fun f o' => o' = o.saw (some f)) (file ref) o := by
  refine Safe.cmd ⟨a.calling, d, a.slot hd⟩ ?_
  rintro (_ | f) o' rfl
  · trivial
  · exact rfl

theorem isDir_keeps (hc : o.calling = none) (hd : o.Reaches d) :
    Keeps (fun _ o' => o' = o) (isDir d) o := by
  refine (call_keeps_plain hc (hd.mayCall rfl rfl rfl) rfl).bind ?_
  rintro _ _ rfl
  exact rfl

theorem ioUnit_keeps {f : File} (hc : o.calling = none) (hu : o.usable = some f) :
    Keeps (fun _ o' => o' = o) (ioUnit f) o := by
  unfold ioUnit
  split
  · exact rfl
  · refine (call_keeps_plain (c := .ioUnit f) hc (Ghost.mayCall rfl rfl ?_) rfl).bind ?_
    · rintro _ ⟨⟩
      exact hu
    · rintro _ _ rfl
      exact rfl

theorem deferUnlock_keeps {α : Type} {Q : α → Ghost → Prop} {body : M α}
    (hbody : Keeps (fun a o' => o'.calling = none ∧ (∃ e, o'.held ref = .live e) ∧
      Q a (o'.unlock ref)) body o) : Keeps Q (deferUnlock ref body) o := by
  refine hbody.bind ?_
  rintro a o' ⟨hc, he, hQ⟩
  refine Safe.cmd ⟨hc, he⟩ ?_
  rintro _ _ rfl
  exact hQ

end Helpers

/-! ## The table -/

section Table

variable {o : Ghost} {op : Op} {h : Nat → Slot} {m : Option (Fid × Nat)} {l : Option Nat}
  {ref : Nat} {fid : Fid}

/-- The outcome of `getRef`. -/
def LookedUp (op : Op) : Except Err Nat → Ghost → Prop
  | .error _, o => o.Released
  | .ok ref, o => ∃ d, o.At op (Function.update noLocks ref (.live (some d))) none (some ref)

theorem Ghost.At.unlocked {slot : Slot} (a : o.At op (Function.update noLocks ref slot) m l) :
    (o.unlock ref).Released := by
  intro ref'
  refine ((a.unlock ref).slot rfl).trans ?_
  rw [Function.update_idem, Function.update_apply]
  split <;> rfl

theorem getRef_keeps (fid : Fid) (a : o.At op noLocks none l) :
    Keeps (LookedUp op) (getRef fid) o := by
  unfold getRef
  split
  · exact a.released
  · refine Safe.cmd a.calling ?_
    rintro (_ | ref) _ rfl
    · exact a.released
    · have a := a.look (some ref)
      refine Safe.cmd ⟨a.calling, rfl, Or.inl a.released⟩ ?_
      rintro _ _ ⟨-, e, rfl⟩
      have a := a.lock ref e
      have he := a.slot (Function.update_self ref _ _)
      refine Safe.cmd ⟨a.calling, e, he⟩ ?_
      rintro e' _ ⟨he', rfl⟩
      cases he.symm.trans he'
      cases e with
      | none =>
          refine Safe.cmd ⟨a.calling, none, he⟩ ?_
          rintro _ _ rfl
          exact a.unlocked
      | some d => exact ⟨d, a⟩

/-- The outcome of `newRef`, for a thread with ghost value `o` before. -/
def Reserved (o : Ghost) (fid : Fid) : Except Err Nat → Ghost → Prop
  | .error _, o' => o' = o
  | .ok ref, o' => o.held ref = .free ∧ o' = o.reserve fid ref

theorem newRef_keeps (a : o.At op h none l) : Keeps (Reserved o fid) (newRef fid) o := by
  unfold newRef
  split
  · exact rfl
  · rename_i hfid
    refine Safe.cmd ⟨a.calling, a.mine, a.op ▸ nofun, hfid⟩ ?_
    rintro (_ | ref) o' hpost
    · exact hpost
    · exact hpost

theorem withRef_keeps {fail : Err → Ret} {body : Nat → M Ret} (fid : Fid)
    (hbody : ∀ ref d o, o.At op (Function.update noLocks ref (.live (some d))) none (some ref) →
      Keeps (fun _ o' => ∃ e m l, o'.At op (Function.update noLocks ref (.live e)) m l)
        (body ref) o) :
    Keeps (fun _ o' => o'.Released) (withRef fid fail body) (Ghost.begin op) := by
  refine (getRef_keeps fid (Ghost.At.begin op)).bind ?_
  rintro (err | ref) o hr
  · exact hr
  · obtain ⟨d, a⟩ := hr
    refine deferUnlock_keeps ((hbody ref d o a).mono ?_)
    rintro _ o' ⟨e, m, l, a⟩
    exact ⟨a.calling, ⟨e, a.slot (Function.update_self ..)⟩, a.unlocked⟩

/-- The placeholder `ref` is gone, and the thread is where it was before
`newRef`. -/
theorem Ghost.At.unreserve {slot : Slot} (a : o.At op (Function.update h ref slot) m l)
    (hfree : h ref = .free) (hm : ∀ p, m = some p → p.2 = ref) :
    (o.unlock ref).At op h none l := by
  have ha := a.unlock ref
  have hheld : Function.update (Function.update h ref slot) ref .free = h := by
    rw [Function.update_idem, ← hfree, Function.update_eq_self]
  have hmine : m.filter (fun p => p.2 ≠ ref) = none := by
    cases m with
    | none => rfl
    | some p => exact Option.filter_some_neg (by simp [hm p rfl])
  rw [hheld, hmine] at ha
  exact ha

theorem withNewRef_keeps {fail : Err → Ret} {body : Nat → M Ret} (a : o.At op h none l)
    (hbody : ∀ ref, h ref = .free → Keeps (fun _ o' => ∃ e m, (∀ p, m = some p → p.2 = ref) ∧
      o'.At op (Function.update h ref (.live e)) m l) (body ref) (o.reserve fid ref)) :
    Keeps (fun _ o' => o'.At op h none l) (withNewRef fid fail body) o := by
  refine (newRef_keeps a).bind ?_
  rintro (err | ref) o' hr
  · cases hr
    exact a
  · obtain ⟨hfree, rfl⟩ := hr
    have hfree : h ref = .free := (congrFun a.held ref).symm.trans hfree
    refine deferUnlock_keeps ((hbody ref hfree).mono ?_)
    rintro _ o' ⟨e, m, hm, a⟩
    exact ⟨a.calling, ⟨e, a.slot (Function.update_self ..)⟩, a.unreserve hfree hm⟩

theorem delRefAction_keeps {d : Nat} {remove : Bool}
    (a : o.At op (Function.update h ref (.live (some d))) none (some ref)) :
    Keeps (fun _ o' => o'.At op (Function.update h ref (.live none)) none (some ref))
      (delRefAction ref remove) o := by
  have hd : Function.update h ref (.live (some d)) ref = .live (some d) := Function.update_self ..
  have hlast := a.last
  -- both branches issue one call that releases `d`
  have hcall : ∀ c : Call, c.dirent = some d → c.releases → c.file = none →
      Keeps (fun _ o' => o'.At op (Function.update h ref .stale) none (some ref)) (call c) o := by
    intro c hcd hc hf
    refine (call_keeps a.calling ⟨?_, ?_, ?_⟩).mono ?_
    · intro d' h'
      rw [hcd] at h'
      cases h'
      exact a.reaches hd
    · intro _
      rw [hcd]
      exact ⟨ref, hlast, a.slot hd⟩
    · intro f h'
      rw [hf] at h'
      cases h'
    · rintro r _ rfl
      have ha := a.release hc rfl r
      rwa [Function.update_idem] at ha
  refine (ent_keeps a hd).bind ?_
  rintro _ _ ⟨rfl, rfl⟩
  have hrest : ∀ (err2 : Option Err) o', o'.At op (Function.update h ref .stale) none (some ref) →
      Keeps (fun _ o' => o'.At op (Function.update h ref (.live none)) none (some ref))
        (do issue (.setEnt ref none); return combineErrors none err2) o' := by
    intro err2 o' a'
    refine Safe.cmd ⟨a'.calling, ?_, nofun⟩ ?_
    · rw [a'.slot (Function.update_self ..)]
      exact nofun
    · rintro _ _ rfl
      have ha := a'.set ref (.live none)
      rwa [Function.update_idem] at ha
  cases remove with
  | true => exact (hcall (.remove d) rfl rfl rfl).bind hrest
  | false => exact (hcall (.clunk d) rfl rfl rfl).bind hrest

theorem delRef_keeps {remove : Bool} (a : o.At op h none l)
    (hop : op = .clunk fid ∨ op = .remove fid ∨ o.failed) (hh : h = noLocks ∨ o.failed) :
    Keeps (fun _ o' => ∃ l, o'.At op h none l) (delRef fid remove) o := by
  have hop : o.op = some (.clunk fid) ∨ o.op = some (.remove fid) ∨ o.failed := by
    rw [a.op, Option.some.injEq, Option.some.injEq]
    exact hop
  refine Safe.cmd ⟨a.calling, hop⟩ ?_
  rintro (_ | ref) _ rfl
  · exact ⟨l, a.look none⟩
  · have a := a.look (some ref)
    refine Safe.cmd ⟨a.calling, rfl, ?_⟩ ?_
    · rcases hh with rfl | hf
      · exact Or.inl a.released
      · exact Or.inr hf
    · rintro _ _ ⟨hfree, e, rfl⟩
      have hfree : h ref = .free := (congrFun a.held ref).symm.trans hfree
      have a := a.lock ref e
      have he := a.slot (Function.update_self ref _ _)
      refine deferUnlock_keeps (Safe.cmd ⟨a.calling, e, he⟩ ?_)
      rintro e' _ ⟨he', rfl⟩
      cases he.symm.trans he'
      cases e with
      | none => exact ⟨a.calling, ⟨none, he⟩, some ref, a.unreserve hfree nofun⟩
      | some d =>
          refine (delRefAction_keeps a).mono ?_
          intro _ o' a'
          exact ⟨a'.calling, ⟨none, a'.slot (Function.update_self ..)⟩, some ref,
            a'.unreserve hfree nofun⟩

end Table

end P9p.Session
