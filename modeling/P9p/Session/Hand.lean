/-
# What an operation does with a Dirent

A second discipline for the operations of the session, beside that of
`Discipline`.  It follows the `Dirent`s through a thread:

    a method is called on ref.Ent only where it is known not to be nil;
    a Dirent that was obtained is linked to an SFid before the operation ends;
    ref.Ent is assigned only where it is nil or its Dirent was released;
    an SFid taken out of the table has a nil Ent when it is unlocked.

The ghost value is a `Hand`.  It has no record of mutexes; that what a thread
knows of an `SFid` stays true while it has it locked is shown in `Accounts`.

`Create` breaks the second rule: if it cannot open the directory it has made,
the new `Dirent` is dropped.  `failed` marks such a thread.
-/
import P9p.Session.Books

namespace P9p.Session

open Conc

variable {c : Call}

/-! ## Hands -/

structure Hand where
  /-- The operation is a `Create`. -/
  creating : Bool
  /-- An `SFid`, and the `Dirent` found there. -/
  focus : Option (Nat × Nat)
  /-- The `Dirent` found there was released. -/
  spent : Bool
  /-- The placeholder, until it is linked. -/
  mine : Option Nat
  /-- A `Dirent` that was obtained, until it is linked. -/
  fresh : Option Nat
  /-- The `SFid` taken out of the table, until it is unlocked. -/
  taken : Option Nat
  /-- An `SFid` whose `Ent` is nil. -/
  cleared : Option Nat
  failed : Bool
  /-- The last command has read a nil `Ent`. -/
  sawNil : Bool

namespace Hand

def idle : Hand := ⟨false, none, false, none, none, none, none, false, false⟩

def begin (op : Op) : Hand := { idle with creating := op.isCreate }

/-- After `getRef`. -/
def on (op : Op) (ref d : Nat) : Hand := { begin op with focus := some (ref, d) }

/-- The thread may assign `ref.Ent`: no `Dirent` is lost. -/
def MayAssign (x : Hand) (ref : Nat) : Prop :=
  x.mine = some ref ∨ (∃ d, x.focus = some (ref, d)) ∧ x.spent

def pre (x : Hand) : Cmd → Prop
  | .setEnt ref none => x.MayAssign ref
  | .setEnt ref (some d) => x.fresh = some d ∧ x.MayAssign ref
  | .loadAndDelete _ => x.taken = none
  | .unlock ref => x.taken = some ref → x.cleared = some ref
  | .leave c => ∀ r d, c.obtains r = some d → x.fresh = none
  | _ => True

/-- What the thread knows excludes other results. -/
def Allows (x : Hand) : (c : Cmd) → c.Res → Prop
  | .storeNew _, some new => ∀ ref d, x.focus = some (ref, d) → new ≠ ref
  | .getEnt ref, r => ∀ d, x.focus = some (ref, d) → r = some d
  | _, _ => True

def after (x : Hand) : (c : Cmd) → c.Res → Hand
  | .storeNew _, new => { x with mine := new.or x.mine, sawNil := false }
  | .loadAndDelete _, ref => { x with taken := ref, sawNil := false }
  | .unlock ref, _ =>
      { x with
        focus := none
        spent := false
        mine := x.mine.filter (· ≠ ref)
        taken := x.taken.filter (· ≠ ref)
        cleared := none
        sawNil := false }
  | .getEnt ref, none => { x with cleared := some ref, sawNil := true }
  | .getEnt ref, some d =>
      { x with
        focus := some (ref, d)
        spent := x.spent && x.focus = some (ref, d)
        sawNil := false }
  | .setEnt ref none, _ =>
      { x with focus := none, spent := false, cleared := some ref, sawNil := false }
  | .setEnt ref (some d), _ =>
      { x with
        focus := some (ref, d)
        spent := false
        mine := none
        fresh := none
        cleared := none
        sawNil := false }
  | .enter c, _ =>
      { x with
        spent := x.spent || c.releases && c.dirent = x.focus.map Prod.snd
        sawNil := false }
  | .leave c, r =>
      { x with
        fresh := (c.obtains r).or x.fresh
        spent := x.spent || (c.consumes r).isSome && c.consumes r = x.focus.map Prod.snd
        failed := x.failed || x.creating && c.openFails r
        sawNil := false }
  | _, _ => { x with sawNil := false }

def post (x : Hand) (c : Cmd) (r : c.Res) (x' : Hand) : Prop := x.Allows c r ∧ x' = x.after c r

/-- How an operation ends. -/
structure Done (x : Hand) : Prop where
  taken : x.taken = none
  fresh : x.failed ∨ x.fresh = none

theorem Done.begin (op : Op) : (begin op).Done := ⟨rfl, Or.inr rfl⟩

theorem Done.on (op : Op) (ref d : Nat) : (on op ref d).Done := ⟨rfl, Or.inr rfl⟩

end Hand

/-- `p` keeps to the discipline, `Q` holds at its end, and it does not crash on
a nil `Ent`. -/
abbrev Careful {α : Type} (Q : α → Hand → Prop) (p : M α) (x : Hand) : Prop :=
  Strict Hand.pre Hand.post (fun x => x.sawNil = false) Q p x

/-! ## The helpers of the operations -/

section Helpers

variable {x : Hand} {op : Op} {ref d : Nat}

theorem Hand.calm (hx : x.sawNil = false) : { x with sawNil := false } = x := by
  rw [← hx]

/-- A command that the hand takes no note of. -/
theorem careful_quiet {α : Type} {Q : α → Hand → Prop} {c : Cmd} {k : c.Res → M α}
    (hx : x.sawNil = false) (hpre : x.pre c)
    (hafter : ∀ r, x.after c r = { x with sawNil := false })
    (hk : ∀ r, Careful Q (k r) x) : Careful Q (issue c >>= k) x := by
  refine Strict.cmd hpre ?_
  rintro r _ ⟨-, rfl⟩
  rw [hafter, Hand.calm hx]
  exact hk r

/-- The hand after a call that obtains and releases nothing. -/
theorem call_careful (hx : x.sawNil = false) (hr : c.releases = false)
    (ho : ∀ r, c.obtains r = none) (hc : ∀ r, c.consumes r = none) :
    Careful (fun r x' => x' = { x with failed := x.failed || x.creating && c.openFails r })
      (call c) x := by
  refine Strict.cmd trivial ?_
  rintro _ _ ⟨-, rfl⟩
  refine Strict.issue (fun r d h => ?_) ?_
  · rw [ho r] at h
    cases h
  · rintro r _ ⟨-, rfl⟩
    simp only [Hand.after, hr, ho r, hc r, Bool.false_and, Bool.or_false, Option.isSome_none,
      Option.none_or, hx]

theorem call_careful_plain (hx : x.sawNil = false) (hr : c.releases = false)
    (ho : ∀ r, c.obtains r = none) (hc : ∀ r, c.consumes r = none)
    (hf : ∀ r, c.openFails r = false) : Careful (fun _ x' => x' = x) (call c) x := by
  refine (call_careful hx hr ho hc).mono ?_
  rintro r _ rfl
  rw [hf r, Bool.and_false, Bool.or_false]

/-- The hand after a call that may obtain a `Dirent`. -/
theorem call_careful_obtains (hx : x.sawNil = false) (hfresh : x.fresh = none)
    (hr : c.releases = false) (hf : ∀ r, c.openFails r = false) :
    Careful (fun r x' => x' = { x with
        fresh := c.obtains r
        spent := x.spent || (c.consumes r).isSome && c.consumes r = x.focus.map Prod.snd })
      (call c) x := by
  refine Strict.cmd trivial ?_
  rintro _ _ ⟨-, rfl⟩
  refine Strict.issue (fun _ _ _ => hfresh) ?_
  rintro r _ ⟨-, rfl⟩
  simp only [Hand.after, hr, hf r, hfresh, Bool.false_and, Bool.and_false, Bool.or_false,
    Option.or_none, hx]

/-- The same for one that consumes none. -/
theorem call_careful_fresh (hx : x.sawNil = false) (hfresh : x.fresh = none)
    (hr : c.releases = false) (hf : ∀ r, c.openFails r = false) (hc : ∀ r, c.consumes r = none) :
    Careful (fun r x' => x' = { x with fresh := c.obtains r }) (call c) x := by
  refine (call_careful_obtains hx hfresh hr hf).mono ?_
  rintro r _ rfl
  rw [hc r, Option.isSome_none, Bool.false_and, Bool.or_false]

/-- The hand after a call that releases the `Dirent` found. -/
theorem call_careful_releases (hx : x.sawNil = false) (hd : x.focus = some (ref, d))
    (hcd : c.dirent = some d) (hr : c.releases) (ho : ∀ r, c.obtains r = none)
    (hc : ∀ r, c.consumes r = none) (hf : ∀ r, c.openFails r = false) :
    Careful (fun _ x' => x' = { x with spent := true }) (call c) x := by
  refine Strict.cmd trivial ?_
  rintro _ _ ⟨-, rfl⟩
  refine Strict.issue (fun r d' h => ?_) ?_
  · rw [ho r] at h
    cases h
  · rintro r _ ⟨-, rfl⟩
    simp only [Hand.after, hr, hcd, hd, ho r, hc r, hf r, Option.map_some, decide_true,
      Bool.and_true, Bool.or_true, Bool.true_or, Bool.and_false, Bool.or_false, Option.none_or, hx]

theorem ent_careful (hx : x.sawNil = false) (hd : x.focus = some (ref, d)) :
    Careful (fun d' x' => d = d' ∧ x' = x) (ent ref) x := by
  refine Strict.cmd trivial ?_
  rintro r _ ⟨hr, rfl⟩
  cases hr d hd
  refine ⟨rfl, ?_⟩
  simp only [Hand.after, hd, decide_true, Bool.and_true]
  rw [← hd, Hand.calm hx]

theorem file_careful (hx : x.sawNil = false) : Careful (fun _ x' => x' = x) (file ref) x := by
  refine careful_quiet hx trivial (fun _ => rfl) ?_
  rintro (_ | f)
  · exact hx
  · exact rfl

theorem isDir_careful (hx : x.sawNil = false) (d : Nat) :
    Careful (fun _ x' => x' = x) (isDir d) x := by
  refine (call_careful_plain hx rfl (fun _ => rfl) (fun _ => rfl) fun _ => rfl).bind ?_
  rintro _ _ rfl
  exact rfl

theorem ioUnit_careful (hx : x.sawNil = false) (f : File) :
    Careful (fun _ x' => x' = x) (ioUnit f) x := by
  unfold ioUnit
  split
  · exact rfl
  · refine (call_careful_plain (c := .ioUnit f) hx rfl (fun _ => rfl) (fun _ => rfl)
      fun _ => rfl).bind ?_
    rintro _ _ rfl
    exact rfl

theorem Hand.Done.unlock (h : x.Done) (ref : Nat) : (x.after (.unlock ref) ()).Done := by
  refine ⟨?_, h.fresh⟩
  simp only [Hand.after, h.taken, Option.filter_none]

theorem Hand.Done.pre_unlock (h : x.Done) (ref : Nat) : x.pre (.unlock ref) := by
  intro ht
  cases h.taken.symm.trans ht

/-- The deferred `ref.Unlock()` of an operation. -/
theorem deferUnlock_careful {α : Type} {body : M α} (hbody : Careful (fun _ x' => x'.Done) body x) :
    Careful (fun _ x' => x'.Done) (deferUnlock ref body) x := by
  refine hbody.bind ?_
  intro a x' hx'
  refine Strict.cmd (hx'.pre_unlock ref) ?_
  rintro _ _ ⟨-, rfl⟩
  exact hx'.unlock ref

end Helpers

/-! ## The table -/

section Table

variable {x : Hand} {op : Op} {ref d : Nat}

/-- The outcome of `getRef`. -/
def Found (op : Op) : Except Err Nat → Hand → Prop
  | .error _, x => x = Hand.begin op
  | .ok ref, x => ∃ d, x = Hand.on op ref d

theorem getRef_careful (fid : Fid) (op : Op) : Careful (Found op) (getRef fid) (Hand.begin op) := by
  unfold getRef
  split
  · exact rfl
  · refine Strict.cmd trivial ?_
    rintro (_ | ref) _ ⟨-, rfl⟩
    · exact rfl
    · refine Strict.cmd trivial ?_
      rintro _ _ ⟨-, rfl⟩
      refine Strict.cmd trivial ?_
      rintro (_ | d) _ ⟨-, rfl⟩
      · refine Strict.cmd nofun ?_
        rintro _ _ ⟨-, rfl⟩
        exact rfl
      · exact ⟨d, rfl⟩

/-- The outcome of `newRef`. -/
def Placed (x : Hand) : Except Err Nat → Hand → Prop
  | .error _, x' => x' = x
  | .ok new, x' => (∀ ref d, x.focus = some (ref, d) → new ≠ ref) ∧ x' = { x with mine := some new }

theorem newRef_careful (hx : x.sawNil = false) (fid : Fid) : Careful (Placed x) (newRef fid) x := by
  unfold newRef
  split
  · exact rfl
  · refine Strict.cmd trivial ?_
    rintro (_ | new) _ ⟨hnew, rfl⟩
    · exact Hand.calm hx
    · refine ⟨hnew, ?_⟩
      simp only [Hand.after, Option.some_or, hx]

theorem withRef_careful {fail : Err → Ret} {body : Nat → M Ret} (fid : Fid)
    (hbody : ∀ ref d, Careful (fun _ x' => x'.Done) (body ref) (Hand.on op ref d)) :
    Careful (fun _ x' => x'.Done) (withRef fid fail body) (Hand.begin op) := by
  refine (getRef_careful fid op).bind ?_
  rintro (err | ref) x hr
  · cases hr
    exact Hand.Done.begin op
  · obtain ⟨d, rfl⟩ := hr
    exact deferUnlock_careful (hbody ref d)

theorem withNewRef_careful {fail : Err → Ret} {body : Nat → M Ret} (fid : Fid)
    (hx : x.sawNil = false) (hdone : x.Done)
    (hbody : ∀ ref, Careful (fun _ x' => x'.Done) (body ref) { x with mine := some ref }) :
    Careful (fun _ x' => x'.Done) (withNewRef fid fail body) x := by
  refine (newRef_careful hx fid).bind ?_
  rintro (err | ref) x' hr
  · cases hr
    exact hdone
  · obtain ⟨-, rfl⟩ := hr
    exact deferUnlock_careful (hbody ref)

theorem delRefAction_careful {remove : Bool} (hx : x.sawNil = false)
    (hd : x.focus = some (ref, d)) :
    Careful (fun _ x' => x' = { x with focus := none, spent := false, cleared := some ref })
      (delRefAction ref remove) x := by
  have hrest : ∀ err2 : Option Err,
      Careful (fun _ x' => x' = { x with focus := none, spent := false, cleared := some ref })
        (do issue (.setEnt ref none); return combineErrors none err2) { x with spent := true } := by
    intro err2
    refine Strict.cmd (Or.inr ⟨⟨d, hd⟩, rfl⟩) ?_
    rintro _ _ ⟨-, rfl⟩
    show Hand.after _ _ _ = _
    simp only [Hand.after, hx]
  refine (ent_careful hx hd).bind ?_
  rintro _ _ ⟨rfl, rfl⟩
  cases remove with
  | true =>
      refine (call_careful_releases (c := .remove d) hx hd rfl rfl (fun _ => rfl) (fun _ => rfl)
        fun _ => rfl).bind ?_
      rintro err2 _ rfl
      exact hrest err2
  | false =>
      refine (call_careful_releases (c := .clunk d) hx hd rfl rfl (fun _ => rfl) (fun _ => rfl)
        fun _ => rfl).bind ?_
      rintro err2 _ rfl
      exact hrest err2

theorem delRef_careful {remove : Bool} (fid : Fid) (ht : x.taken = none) :
    Careful (fun _ x' => x'.taken = none ∧ x'.fresh = x.fresh ∧ x'.failed = x.failed)
      (delRef fid remove) x := by
  refine Strict.cmd ht ?_
  rintro (_ | ref) _ ⟨-, rfl⟩
  · exact ⟨rfl, rfl, rfl⟩
  · refine Strict.cmd trivial ?_
    rintro _ _ ⟨-, rfl⟩
    -- the `SFid` is unlocked with a nil `Ent`
    have hunlock : ∀ (err : Option Err) (x' : Hand), x'.taken = some ref → x'.cleared = some ref →
        x'.fresh = x.fresh → x'.failed = x.failed →
        Careful (fun _ x' => x'.taken = none ∧ x'.fresh = x.fresh ∧ x'.failed = x.failed)
          (do issue (.unlock ref); return err) x' := by
      intro err x' htaken hcleared hfresh hfailed
      refine Strict.cmd (fun _ => hcleared) ?_
      rintro _ _ ⟨-, rfl⟩
      refine ⟨?_, hfresh, hfailed⟩
      simp only [Hand.after, htaken]
      exact Option.filter_some_neg (by simp)
    refine Strict.cmd trivial ?_
    rintro (_ | d) _ ⟨-, rfl⟩
    · exact hunlock none _ rfl rfl rfl rfl
    · refine (delRefAction_careful rfl rfl).bind ?_
      rintro err _ rfl
      exact hunlock err _ rfl rfl rfl rfl

end Table

/-! ## The operations -/

section Operations

variable {x : Hand} {op : Op} {ref d : Nat}

theorem auth_careful (afid : Fid) (uname aname : Bytes) (op : Op) :
    Careful (fun _ x' => x'.Done) (auth afid uname aname) (Hand.begin op) := by
  unfold auth
  split
  · exact Hand.Done.begin op
  · refine (call_careful_plain rfl rfl (fun _ => rfl) (fun _ => rfl) fun _ => rfl).bind ?_
    rintro required _ rfl
    split
    · exact Hand.Done.begin op
    · refine withNewRef_careful afid rfl (Hand.Done.begin op) ?_
      intro aref
      refine (call_careful_plain rfl rfl (fun _ => rfl) (fun _ => rfl) fun _ => rfl).bind ?_
      rintro ⟨afile, _ | err⟩ _ rfl
      · exact careful_quiet rfl trivial (fun _ => rfl) fun _ => ⟨rfl, Or.inr rfl⟩
      · exact careful_quiet rfl trivial (fun _ => rfl) fun _ => ⟨rfl, Or.inr rfl⟩

theorem attachWith_careful (fid : Fid) (uname aname : Bytes) (af : Option File)
    (hx : x.sawNil = false) (ht : x.taken = none) (hfresh : x.fresh = none) :
    Careful (fun _ x' => x'.Done) (attachWith fid uname aname af) x := by
  refine withNewRef_careful fid hx ⟨ht, Or.inr hfresh⟩ ?_
  intro ref
  refine (call_careful_fresh (x := { x with mine := some ref }) hx hfresh rfl (fun _ => rfl)
    fun _ => rfl).bind ?_
  rintro ⟨e, _ | err⟩ _ rfl
  · cases e with
    | none =>
        refine Strict.cmd (Or.inl rfl) ?_
        rintro _ _ ⟨-, rfl⟩
        exact rfl
    | some d =>
        refine Strict.cmd ⟨rfl, Or.inl rfl⟩ ?_
        rintro _ _ ⟨-, rfl⟩
        refine (call_careful_plain rfl rfl (fun _ => rfl) (fun _ => rfl) fun _ => rfl).bind ?_
        rintro q _ rfl
        exact ⟨ht, Or.inr rfl⟩
  · exact careful_quiet hx trivial (fun _ => rfl) fun _ => ⟨ht, Or.inr rfl⟩

theorem attach_careful (fid afid : Fid) (uname aname : Bytes) (op : Op) :
    Careful (fun _ x' => x'.Done) (attach fid afid uname aname) (Hand.begin op) := by
  unfold attach
  split
  · exact attachWith_careful fid uname aname none rfl rfl rfl
  · refine (getRef_careful afid op).bind ?_
    rintro (err | aref) x hr
    · cases hr
      exact Hand.Done.begin op
    · obtain ⟨d, rfl⟩ := hr
      refine careful_quiet rfl trivial (fun _ => rfl) ?_
      rintro (_ | _)
      · exact Hand.Done.on op aref d
      · refine deferUnlock_careful (careful_quiet rfl trivial (fun _ => rfl) ?_)
        rintro (_ | ⟨id, kind⟩)
        · exact Hand.Done.on op aref d
        · cases kind with
          | plain => exact Hand.Done.on op aref d
          | readdir => exact Hand.Done.on op aref d
          | auth =>
              refine (call_careful_plain rfl rfl (fun _ => rfl) (fun _ => rfl) fun _ => rfl).bind ?_
              rintro ok _ rfl
              split
              · exact Hand.Done.on op aref d
              · exact attachWith_careful fid uname aname (some ⟨id, .auth⟩) rfl rfl rfl

theorem clunk_careful (fid : Fid) (op : Op) :
    Careful (fun _ x' => x'.Done) (clunk fid) (Hand.begin op) := by
  refine (delRef_careful fid rfl).bind ?_
  rintro err x ⟨ht, hfresh, -⟩
  exact ⟨ht, Or.inr hfresh⟩

theorem remove_careful (fid : Fid) (op : Op) :
    Careful (fun _ x' => x'.Done) (remove fid) (Hand.begin op) := by
  refine (delRef_careful fid rfl).bind ?_
  rintro err x ⟨ht, hfresh, -⟩
  exact ⟨ht, Or.inr hfresh⟩

/-- The outcome of `walkEnt`: a `Dirent` is obtained if the walk is complete. -/
def WalkGives (x : Hand) (names : List Bytes) : Except Ret (List Qid × Nat) → Hand → Prop
  | .error _, x' => x' = x
  | .ok (qids, d), x' =>
      x' = { x with fresh := if qids.length = names.length then some d else none }

theorem walkEnt_careful (hx : x.sawNil = false) (hd : x.focus = some (ref, d))
    (hfresh : x.fresh = none) (same : Bool) (names : List Bytes) :
    Careful (WalkGives x names) (walkEnt ref same names) x := by
  have hwalk := call_careful_fresh (c := .walk d names) hx hfresh rfl (fun _ => rfl) fun _ => rfl
  -- a walk that gives no `Dirent`
  have hnone : ∀ {r : Ret},
    Careful (WalkGives x names) (return .error r) { x with fresh := none } := by
    intro r
    show { x with fresh := none } = x
    rw [← hfresh]
  unfold walkEnt
  split
  · split
    · exact rfl
    · subst names
      refine (ent_careful hx hd).bind ?_
      rintro _ _ ⟨rfl, rfl⟩
      refine hwalk.bind ?_
      rintro ⟨qids, _ | d', _ | err⟩ _ rfl
      · exact hnone
      · exact hnone
      · exact rfl
      · exact hnone
  · rename_i hnames
    refine (ent_careful hx hd).bind ?_
    rintro _ _ ⟨rfl, rfl⟩
    refine (isDir_careful hx _).bind ?_
    rintro dir _ rfl
    split
    · refine (ent_careful hx hd).bind ?_
      rintro _ _ ⟨rfl, rfl⟩
      refine hwalk.bind ?_
      -- a `Dirent` is obtained by a complete walk only
      have hobtains : ∀ (qids : List Qid) (e : Option Nat), (Call.walk d names).obtains
          (qids, e, none) = if qids.length = names.length then e else none := by
        intro qids e
        simp only [Call.obtains, hnames, false_or]
      rintro ⟨qids, _ | d', _ | err⟩ _ rfl
      · rw [hobtains, ite_self]
        exact hnone
      · exact hnone
      · rw [hobtains]
        dsimp only [ensureNonNil]
        split
        · rename_i hzero
          rw [if_neg (by rw [hzero]; exact fun h => hnames (List.length_eq_zero_iff.mp h.symm))]
          exact hnone
        · exact rfl
      · exact hnone
    · exact rfl

/-- The deferred function of `Walk`. -/
theorem walkCleanup_careful (h : x.Done) (newfid : Fid) (ref : Nat) (newref : Option Nat) :
    Careful (fun _ x' => x'.Done) (walkCleanup newfid ref newref) x := by
  cases newref with
  | none =>
      refine Strict.issue (h.pre_unlock ref) ?_
      rintro _ _ ⟨-, rfl⟩
      exact h.unlock ref
  | some newref =>
      refine Strict.cmd (h.pre_unlock ref) ?_
      rintro _ _ ⟨-, rfl⟩
      refine careful_quiet rfl trivial (fun _ => rfl) fun _ => ?_
      have h' := h.unlock ref
      refine Strict.issue (h'.pre_unlock newref) ?_
      rintro _ _ ⟨-, rfl⟩
      exact h'.unlock newref

/-- `newfid` is `fid`. -/
theorem walkLocked_careful_same (op : Op) (ref d : Nat) (names : List Bytes) :
    Careful (fun _ x' => x'.Done) (walkLocked ref none names) (Hand.on op ref d) := by
  refine (walkEnt_careful rfl rfl rfl true names).bind ?_
  rintro (r | ⟨qids, d'⟩) _ hr
  · cases hr
    exact Hand.Done.on op ref d
  · cases hr
    dsimp only
    split
    · exact ⟨rfl, Or.inr rfl⟩
    · rename_i hlen
      refine (ent_careful rfl rfl).bind ?_
      rintro _ _ ⟨rfl, rfl⟩
      refine (call_careful_releases (c := .clunk d) rfl rfl rfl rfl (fun _ => rfl) (fun _ => rfl)
        fun _ => rfl).bind ?_
      rintro _ _ rfl
      refine Strict.cmd ⟨if_pos (not_not.mp hlen), Or.inr ⟨⟨d, rfl⟩, rfl⟩⟩ ?_
      rintro _ _ ⟨-, rfl⟩
      exact ⟨rfl, Or.inr rfl⟩

/-- `newfid` is not `fid`. -/
theorem walkLocked_careful_new (op : Op) {ref newref : Nat} (hne : newref ≠ ref) (d : Nat)
    (names : List Bytes) :
    Careful (fun _ x' => x'.Done) (walkLocked ref (some newref) names)
      { Hand.on op ref d with mine := some newref } := by
  refine (walkEnt_careful rfl rfl rfl false names).bind ?_
  rintro (r | ⟨qids, d'⟩) _ hr
  · cases hr
    exact ⟨rfl, Or.inr rfl⟩
  · cases hr
    dsimp only
    split
    · exact ⟨rfl, Or.inr rfl⟩
    · rename_i hlen
      have hmine : (some newref).filter (· ≠ ref) = some newref :=
        Option.filter_some_pos (decide_eq_true hne)
      refine Strict.cmd nofun ?_
      rintro _ _ ⟨-, rfl⟩
      refine Strict.cmd ⟨if_pos (not_not.mp hlen), Or.inl hmine⟩ ?_
      rintro _ _ ⟨-, rfl⟩
      exact ⟨rfl, Or.inr rfl⟩

/-- The outcome of `walkRef`. -/
def WalkPlaces (x : Hand) : Except Err (Option Nat) → Hand → Prop
  | .error _, x' | .ok none, x' => x' = x
  | .ok (some new), x' => Placed x (.ok new) x'

theorem walkRef_careful (hx : x.sawNil = false) (fid newfid : Fid) :
    Careful (WalkPlaces x) (walkRef fid newfid) x := by
  unfold walkRef
  split
  · exact rfl
  · refine (newRef_careful hx newfid).bind ?_
    rintro (err | new) x' hr
    · exact hr
    · exact hr

theorem walk_careful (fid newfid : Fid) (names : List Bytes) (op : Op) :
    Careful (fun _ x' => x'.Done) (walk fid newfid names) (Hand.begin op) := by
  have hcleanup : ∀ {y : Ret × Nat × Option Nat} {x : Hand}, x.Done →
      Careful (fun _ x' => x'.Done) (do walkCleanup newfid y.2.1 y.2.2; return y.1) x :=
    fun h => (walkCleanup_careful h newfid _ _).bind fun _ _ h => h
  unfold walk
  split
  · exact Hand.Done.begin op
  · refine (getRef_careful fid op).bind ?_
    rintro (err | ref) x hr
    · cases hr
      exact Hand.Done.begin op
    · obtain ⟨d, rfl⟩ := hr
      refine (walkRef_careful rfl fid newfid).bind ?_
      rintro (err | _ | newref) x hr
      · cases hr
        exact hcleanup (y := (.qids [] (some err), ref, none)) (Hand.Done.on op ref d)
      · cases hr
        exact (walkLocked_careful_same op ref d names).bind fun _ _ h => hcleanup h
      · obtain ⟨hne, rfl⟩ := hr
        exact (walkLocked_careful_new op (hne ref d rfl) d names).bind fun _ _ h => hcleanup h

theorem transfer_careful {refuses : Flag → Bool} {denied : Err} {io : File → M (Int × Option Err)}
    (hio : ∀ (x : Hand) (f : File), x.sawNil = false → Careful (fun _ x' => x' = x) (io f) x)
    (fid : Fid) (op : Op) :
    Careful (fun _ x' => x'.Done) (transfer fid refuses denied io) (Hand.begin op) := by
  refine withRef_careful fid ?_
  intro ref d
  refine careful_quiet rfl trivial (fun _ => rfl) ?_
  rintro (_ | f)
  · exact Hand.Done.on op ref d
  · refine careful_quiet rfl trivial (fun _ => rfl) ?_
    intro mode
    split
    · exact Hand.Done.on op ref d
    · refine (file_careful rfl).bind ?_
      rintro g _ rfl
      refine (hio _ g rfl).bind ?_
      rintro ⟨n, err⟩ _ rfl
      exact Hand.Done.on op ref d

/-- The outcome of `openEnt`. -/
def OpenGives (x : Hand) : Except Err File → Hand → Prop
  | .error _, x' => x' = { x with failed := x.failed || x.creating }
  | .ok _, x' => x' = x

theorem pure_careful (d : Nat) : Careful (fun d' x' => d = d' ∧ x' = x) (pure d) x := ⟨rfl, rfl⟩

theorem openEnt_careful {getEnt : M Nat} (hx : x.sawNil = false)
    (hget : Careful (fun d' x' => d = d' ∧ x' = x) getEnt x) (mode : Flag) :
    Careful (OpenGives x) (openEnt getEnt mode) x := by
  have hok : { x with failed := x.failed || x.creating && false } = x := by
    rw [Bool.and_false, Bool.or_false]
  have hfails : { x with failed := x.failed || x.creating && true } =
      { x with failed := x.failed || x.creating } := by
    rw [Bool.and_true]
  refine hget.bind ?_
  rintro _ _ ⟨rfl, rfl⟩
  refine (isDir_careful hx d).bind ?_
  rintro dir _ rfl
  split
  · refine hget.bind ?_
    rintro _ _ ⟨rfl, rfl⟩
    refine (call_careful (c := .openDir d) hx rfl (fun _ => rfl) fun _ => rfl).bind ?_
    rintro ⟨dirs, _ | err⟩ _ rfl
    · exact hok
    · exact hfails
  · refine hget.bind ?_
    rintro _ _ ⟨rfl, rfl⟩
    refine (call_careful (c := .open d mode) hx rfl (fun _ => rfl) fun _ => rfl).bind ?_
    rintro ⟨_ | f, _ | err⟩ _ rfl
    · exact hfails
    · exact hfails
    · exact hok
    · exact hfails

theorem openLocked_careful (ref d : Nat) (mode : Flag) (hop : op.isCreate = false) :
    Careful (fun _ x' => x' = Hand.on op ref d) (openLocked ref mode) (Hand.on op ref d) := by
  refine careful_quiet rfl trivial (fun _ => rfl) ?_
  rintro (_ | f)
  · refine (openEnt_careful rfl (ent_careful rfl rfl) mode).bind ?_
    rintro (err | f) _ hr
    · cases hr
      show { Hand.on op ref d with failed := false || op.isCreate } = _
      rw [hop]
      rfl
    · cases hr
      exact careful_quiet rfl trivial (fun _ => rfl) fun _ =>
        careful_quiet rfl trivial (fun _ => rfl) fun _ => rfl
  · exact rfl

theorem open_careful (fid : Fid) (mode : Flag) :
    Careful (fun _ x' => x'.Done) (Session.open fid mode) (Hand.begin (.open fid mode)) := by
  refine withRef_careful fid ?_
  intro ref d
  refine (openLocked_careful ref d mode rfl).bind ?_
  rintro (_ | err) _ rfl
  · refine (ent_careful rfl rfl).bind ?_
    rintro _ _ ⟨rfl, rfl⟩
    refine (call_careful_plain rfl rfl (fun _ => rfl) (fun _ => rfl) fun _ => rfl).bind ?_
    rintro q _ rfl
    refine (file_careful rfl).bind ?_
    rintro f _ rfl
    refine (ioUnit_careful rfl f).bind ?_
    rintro n _ rfl
    exact Hand.Done.on _ ref d
  · exact Hand.Done.on _ ref d

theorem replaceEnt_careful (hx : x.sawNil = false) (ht : x.taken = none)
    (hd : x.focus = some (ref, d))
    (hspent : x.spent) {d' : Nat} (hfresh : x.fresh = some d') (f : File) (mode : Flag) :
    Careful (fun _ x' => x'.Done) (replaceEnt ref d' f mode) x := by
  refine careful_quiet hx trivial (fun _ => rfl) fun _ => ?_
  refine careful_quiet hx trivial (fun _ => rfl) fun _ => ?_
  refine Strict.cmd ⟨hfresh, Or.inr ⟨⟨d, hd⟩, hspent⟩⟩ ?_
  rintro _ _ ⟨-, rfl⟩
  refine careful_quiet rfl trivial (fun _ => rfl) fun _ => ?_
  refine careful_quiet rfl trivial (fun _ => rfl) fun _ => ?_
  refine (ent_careful rfl rfl).bind ?_
  rintro _ _ ⟨rfl, rfl⟩
  refine (call_careful_plain rfl rfl (fun _ => rfl) (fun _ => rfl) fun _ => rfl).bind ?_
  rintro q _ rfl
  refine (ioUnit_careful rfl f).bind ?_
  rintro n _ rfl
  exact ⟨ht, Or.inr rfl⟩

/-- The outcome of `Create` of the parent: if a `Dirent` is obtained, that of the
parent is consumed. -/
theorem create_call_careful (op : Op) (ref d : Nat) (name : Bytes) (perm : UInt32) (mode : Flag) :
    Careful (fun r x' => match created r.1 r.2.1 r.2.2 with
        | .error _ => x' = Hand.on op ref d
        | .ok (d', _) => x' = { Hand.on op ref d with fresh := some d', spent := true })
      (call (.create d name perm mode)) (Hand.on op ref d) := by
  refine (call_careful_obtains rfl rfl rfl fun _ => rfl).mono ?_
  rintro ⟨e, f, err⟩ _ rfl
  rcases e with _ | d' <;> rcases f with _ | f <;> rcases err with _ | err
  case some.some.none =>
    have hspent : decide (some d = some d) = true := decide_eq_true rfl
    show { Hand.on op ref d with
      fresh := some d', spent := false || true && decide (some d = some d) } = _
    rw [hspent]
    rfl
  all_goals exact rfl

theorem createLocked_careful (hop : op.isCreate) (ref d : Nat) (parent : Fid) (name : Bytes)
    (perm : UInt32) (mode : Flag) :
    Careful (fun _ x' => x'.Done) (createLocked ref parent name perm mode) (Hand.on op ref d) := by
  refine (ent_careful rfl rfl).bind ?_
  rintro _ _ ⟨rfl, rfl⟩
  refine (isDir_careful rfl d).bind ?_
  rintro dir _ rfl
  split
  · refine (ent_careful rfl rfl).bind ?_
    rintro _ _ ⟨rfl, rfl⟩
    refine (create_call_careful op ref d name perm mode).bind ?_
    rintro ⟨e, f, err⟩ x hr
    dsimp only at hr ⊢
    cases hcr : created e f err with
    | error err =>
        rw [hcr] at hr
        cases hr
        exact Hand.Done.on op ref d
    | ok p =>
        rw [hcr] at hr
        cases hr
        refine (isDir_careful rfl p.1).bind ?_
        rintro dir _ rfl
        split
        · refine (openEnt_careful rfl (pure_careful p.1) mode).bind ?_
          rintro (err | f) _ hr
          · cases hr
            refine (delRef_careful parent rfl).bind ?_
            rintro _ x' ⟨ht, -, hfailed⟩
            refine ⟨ht, Or.inl (hfailed.trans ?_)⟩
            exact hop
          · cases hr
            exact replaceEnt_careful rfl rfl rfl rfl rfl f mode
        · exact replaceEnt_careful rfl rfl rfl rfl rfl p.2 mode
  · exact Hand.Done.on op ref d

theorem create_careful (parent : Fid) (name : Bytes) (perm : UInt32) (mode : Flag) :
    Careful (fun _ x' => x'.Done) (create parent name perm mode)
      (Hand.begin (.create parent name perm mode)) := by
  unfold create
  split
  · exact Hand.Done.begin _
  · exact withRef_careful parent fun ref d => createLocked_careful rfl ref d parent name perm mode

theorem Op.prog_careful (op : Op) : Careful (fun _ x' => x'.Done) op.prog (Hand.begin op) := by
  cases op with
  | auth afid uname aname => exact auth_careful afid uname aname _
  | attach fid afid uname aname => exact attach_careful fid afid uname aname _
  | clunk fid => exact clunk_careful fid _
  | remove fid => exact remove_careful fid _
  | walk fid newfid names => exact walk_careful fid newfid names _
  | read fid len offset =>
      refine transfer_careful (fun x f hx => ?_) fid _
      exact call_careful_plain (c := .read f len offset) hx rfl (fun _ => rfl) (fun _ => rfl)
        fun _ => rfl
  | write fid p offset =>
      refine transfer_careful (fun x f hx => ?_) fid _
      exact call_careful_plain (c := .write f p offset) hx rfl (fun _ => rfl) (fun _ => rfl)
        fun _ => rfl
  | «open» fid mode => exact open_careful fid mode
  | create parent name perm mode => exact create_careful parent name perm mode
  | stat fid =>
      refine withRef_careful fid fun ref d => (ent_careful rfl rfl).bind ?_
      rintro _ _ ⟨rfl, rfl⟩
      refine (call_careful_plain rfl rfl (fun _ => rfl) (fun _ => rfl) fun _ => rfl).bind ?_
      rintro r _ rfl
      exact Hand.Done.on _ ref d
  | wstat fid dir =>
      refine withRef_careful fid fun ref d => (ent_careful rfl rfl).bind ?_
      rintro _ _ ⟨rfl, rfl⟩
      refine (call_careful_plain rfl rfl (fun _ => rfl) (fun _ => rfl) fun _ => rfl).bind ?_
      rintro r _ rfl
      exact Hand.Done.on _ ref d

end Operations

end P9p.Session
