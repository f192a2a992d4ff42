/-
# Stop while requests are in flight

`ServeConn` calls `Stop` without waiting for the handlers.  `Stop` ranges over
the table and, for every `SFid` with an `Ent`, clunks it and sets it to nil; it
takes no mutex.  One would have, for any interleaving with other operations:

    no Dirent is released twice or called after its release;
    no operation that has passed the check of getRef meets a nil Ent;
    once all have returned, every Dirent obtained was released.

**It is not so.**  An operation that has locked an `SFid` may find its `Ent` nil
or released, and an `Attach` that comes after the visit of `Stop` binds a
`Dirent` that nobody releases (`stop_interferes`).

**When it is.**  `stop_safe`: in every run in which

    Stop looks at an SFid only while no operation has it locked, and none locks
    it until Stop has set its Ent to nil;
    no operation links a Dirent to an SFid behind Stop;
    the condition of `bindings_kept` is met.

Then `Stop` might as well have locked the `SFid`, and the disciplines for the
operations apply to it: the invariants hold of the store in which it has
(`Closing.shadow`).
-/
import P9p.Session.Accounts
import P9p.Session.Bindings
import P9p.Session.Serial

namespace P9p.Session

open Conc

variable {c : Cmd} {env : Env} {r : c.Res} {fid : Fid}

/-! ## The progress of Stop -/

/-- Where `Stop` is: what it has still to visit, and the `SFid` it is at. -/
inductive Stage where
  | between (todo : List Fid)
  | loaded (todo : List Fid) (ref : Nat)
  | found (todo : List Fid) (ref d : Nat)
  | calling (todo : List Fid) (ref d : Nat)
  | released (todo : List Fid) (ref d : Nat)
  deriving DecidableEq

namespace Stage

def todo : Stage → List Fid
  | between todo | loaded todo _ | found todo _ _ | calling todo _ _ | released todo _ _ => todo

/-- The `SFid` that `Stop` has loaded. -/
def hand : Stage → Option Nat
  | between _ => none
  | loaded _ ref | found _ ref _ | calling _ ref _ | released _ ref _ => some ref

/-- The `SFid` whose `Ent` is going to be set to nil. -/
def busy : Stage → Option Nat
  | between _ | loaded _ _ => none
  | found _ ref _ | calling _ ref _ | released _ ref _ => some ref

/-- After a command that had the result `r`. -/
def after : Stage → (c : Cmd) → c.Res → Stage
  | between todo, .load _, none => between todo.tail
  | between todo, .load _, some ref => loaded todo.tail ref
  | loaded todo _, .getEnt _, none => between todo
  | loaded todo ref, .getEnt _, some d => found todo ref d
  | found todo ref d, .enter _, _ => calling todo ref d
  | calling todo ref d, .leave _, _ => released todo ref d
  | released todo _ _, .setEnt _ _, _ => between todo
  | stage, _, _ => stage

end Stage

/-! ## The session -/

/-- The operations and `Stop`, with the thread of `Stop` and where it is. -/
structure Closing where
  pool : State
  visit : Option (Nat × Stage)

namespace Closing

/-- `Stop` is called once. -/
def step (w : Closing) : Sched Request Env → Option Closing
  | .invoke (.call op) =>
      let t := w.pool.threads.length
      some ⟨⟨start w.pool.store t op, w.pool.threads ++ [op.prog]⟩, w.visit⟩
  | .invoke (.stop err fids) =>
      match w.visit with
      | none =>
          some ⟨⟨w.pool.store, w.pool.threads ++ [stop err fids]⟩,
            some (w.pool.threads.length, .between fids)⟩
      | some _ => none
  | .run t env =>
      match w.pool.threads[t]? with
      | some (.cmd c k) =>
          (exec w.pool.store t c env).map fun p =>
            ⟨⟨p.2, w.pool.threads.set t (k p.1)⟩,
              w.visit.map fun v => if v.1 = t then (t, v.2.after c p.1) else v⟩
      | _ => none

/-- No part of the pool depends on the record of `Stop`. -/
theorem step_pool {w w' : Closing} {a : Sched Request Env} (h : w.step a = some w') :
    Pool.step exec (fun s t req => req.start s t) Request.prog w.pool a = some w'.pool := by
  cases a with
  | invoke req =>
      cases req with
      | call op =>
          cases h
          rfl
      | stop err fids =>
          simp only [step] at h
          split at h
          · cases h
            rfl
          · cases h
  | run t env =>
      simp only [step] at h
      simp only [Pool.step]
      split at h
      · rename_i c k ht
        obtain ⟨p, hexec, rfl⟩ := Option.map_eq_some_iff.mp h
        rw [ht]
        dsimp only
        rw [hexec]
        rfl
      · cases h

def initial : Closing := ⟨Session.initial, none⟩

end Closing

/-! ## The property -/

structure StopSafe (w : Closing) : Prop where
  /-- No `Dirent` is called after its release, or released twice. -/
  release : NoUseAfterRelease w.pool.store.log
  /-- No method of a nil `Ent` is called. -/
  nonNil : ∀ (t ref : Nat) k, w.pool.threads[t]? = some (.cmd (.getEnt ref) k) →
    k none = .crash → (w.pool.store.sfid ref).ent ≠ none
  /-- Once all have returned, every `Dirent` obtained was released. -/
  finished : w.visit ≠ none → (∀ p ∈ w.pool.threads, ∃ r, p = .ret r) →
    obtained w.pool.store.log ⊆ released w.pool.store.log

/-! ## The condition -/

/-- The entries of the table. -/
def Store.bindings (s : Store) : List (Fid × Nat) :=
  s.log.filterMap fun
    | .stored _ fid ref => if s.refs fid = some ref then some (fid, ref) else none
    | _ => none

/-- `Stop` looks at an `SFid` only while nobody has it locked. -/
def StopApart (s : Store) : Cmd → Prop
  | .getEnt ref => (s.sfid ref).owner = none
  | _ => True

/-- No operation locks the `SFid` that `Stop` is busy with, or links a `Dirent`
to one that `Stop` has visited. -/
def OpApart (s : Store) (stage : Stage) : Cmd → Prop
  | .lock ref => stage.busy ≠ some ref
  | .setEnt ref (some _) =>
      ∀ p ∈ s.bindings, p.2 = ref → p.1 ∈ stage.todo ∨ stage.hand = some ref
  | _ => True

/-- The condition on a command, and on a step: `Range` visits at least the fids
that are in the table when it begins. -/
def ApartCmd (w : Closing) (t : Nat) (c : Cmd) (env : Env) : Prop :=
  match w.visit with
  | none => Undisturbed w.pool.store t c env
  | some (t', stage) =>
      if t' = t then StopApart w.pool.store c
      else OpApart w.pool.store stage c ∧ Undisturbed w.pool.store t c env

def ApartThread (w : Closing) (t : Nat) (env : Env) : Option (M Ret) → Prop
  | some (.cmd c _) => ApartCmd w t c env
  | _ => True

def ApartStep (w : Closing) : Sched Request Env → Prop
  | .invoke (.call _) => True
  | .invoke (.stop _ fids) => ∀ p ∈ w.pool.store.bindings, p.1 ∈ fids
  | .run t env => ApartThread w t env w.pool.threads[t]?

instance (s : Store) (c : Cmd) : Decidable (StopApart s c) :=
  match c with
  | .getEnt ref => inferInstanceAs (Decidable ((s.sfid ref).owner = none))
  | .load _ | .storeNew _ | .loadAndDelete _ | .delete _ | .lock _ | .unlock _ | .setEnt _ _
  | .getFile _ | .setFile _ _ | .getMode _ | .setMode _ _ | .enter _ | .leave _ => isTrue trivial

instance (s : Store) (stage : Stage) (c : Cmd) : Decidable (OpApart s stage c) :=
  match c with
  | .lock ref => inferInstanceAs (Decidable (stage.busy ≠ some ref))
  | .setEnt ref (some _) =>
      inferInstanceAs (Decidable (∀ p ∈ s.bindings, p.2 = ref → p.1 ∈ stage.todo ∨
        stage.hand = some ref))
  | .load _ | .storeNew _ | .loadAndDelete _ | .delete _ | .unlock _ | .getEnt _ | .setEnt _ none
  | .getFile _ | .setFile _ _ | .getMode _ | .setMode _ _ | .enter _ | .leave _ => isTrue trivial

instance (w : Closing) (t : Nat) (c : Cmd) (env : Env) : Decidable (ApartCmd w t c env) := by
  unfold ApartCmd
  split <;> infer_instance

instance (w : Closing) (t : Nat) (env : Env) (p : Option (M Ret)) :
    Decidable (ApartThread w t env p) :=
  match p with
  | some (.cmd c _) => inferInstanceAs (Decidable (ApartCmd w t c env))
  | some (.ret _) | some .crash | none => isTrue trivial

instance (w : Closing) (a : Sched Request Env) : Decidable (ApartStep w a) :=
  match a with
  | .invoke (.call _) => isTrue trivial
  | .invoke (.stop _ fids) => inferInstanceAs (Decidable (∀ p ∈ w.pool.store.bindings, p.1 ∈ fids))
  | .run t env => inferInstanceAs (Decidable (ApartThread w t env w.pool.threads[t]?))

/-! ## Stop keeps to its stages -/

namespace Stage

def pre : Stage → Cmd → Prop
  | between todo, .load fid => todo.head? = some fid
  | loaded _ ref, .getEnt ref' => ref' = ref
  | found _ ref _, .getEnt ref' => ref' = ref
  | found _ _ d, .enter c => c = .clunk d
  | calling _ _ d, .leave c => c = .clunk d
  | released _ ref _, .setEnt ref' e => ref' = ref ∧ e = none
  | _, _ => False

/-- An `Ent` that was found is found again. -/
def Allows : Stage → (c : Cmd) → c.Res → Prop
  | found _ _ d, .getEnt _, r => r = some d
  | _, _, _ => True

def post (stage : Stage) (c : Cmd) (r : c.Res) (stage' : Stage) : Prop :=
  stage.Allows c r ∧ stage' = stage.after c r

end Stage

/-- `Stop` goes through the stages, and does not crash. -/
abbrev Staged {α : Type} (Q : α → Stage → Prop) (p : M α) (stage : Stage) : Prop :=
  Strict Stage.pre Stage.post (fun _ => False) Q p stage

theorem delRefAction_staged (todo : List Fid) (ref d : Nat) :
    Staged (fun _ stage => stage = .between todo) (delRefAction ref false) (.found todo ref d) := by
  refine Strict.cmd rfl ?_
  rintro _ _ ⟨rfl, rfl⟩
  refine Strict.cmd rfl ?_
  rintro _ _ ⟨-, rfl⟩
  refine Strict.cmd rfl ?_
  rintro err2 _ ⟨-, rfl⟩
  refine Strict.cmd ⟨rfl, rfl⟩ ?_
  rintro _ _ ⟨-, rfl⟩
  exact rfl

theorem sweep_staged (fid : Fid) (todo : List Fid) :
    Staged (fun _ stage => stage = .between todo) (sweep fid) (.between (fid :: todo)) := by
  refine Strict.cmd rfl ?_
  rintro (_ | ref) _ ⟨-, rfl⟩
  · exact rfl
  · refine Strict.cmd rfl ?_
    rintro (_ | d) _ ⟨-, rfl⟩
    · exact rfl
    · refine (delRefAction_staged todo ref d).bind ?_
      rintro _ _ rfl
      exact rfl

theorem stop_staged (err : Option Err) (fids : List Fid) :
    Staged (fun _ stage => stage = .between []) (stop err fids) (.between fids) := by
  induction fids with
  | nil => exact rfl
  | cons fid fids ih =>
      refine (sweep_staged fid fids).bind ?_
      rintro _ _ rfl
      exact ih

/-! ## A mutex on loan -/

variable {s s' : Store} {f : Nat → Ghost} {x : Nat → Hand} {t : Nat}

/-- The store in which thread `p.1` has locked the `SFid` `p.2`. -/
def Store.lend (s : Store) : Option (Nat × Nat) → Store
  | none => s
  | some (t, ref) => s.modify ref fun g => { g with owner := some t }

theorem Store.lend_field {α : Type} (s : Store) (p : SFid → α) (l : Option (Nat × Nat))
    (hp : ∀ g owner, p { g with owner } = p g) (ref : Nat) :
    p ((s.lend l).sfid ref) = p (s.sfid ref) := by
  cases l with
  | none => rfl
  | some l => exact s.modify_field p l.2 (fun g => hp g (some l.1)) ref

theorem Store.lend_owner_of_ne (s : Store) {t ref ref' : Nat} (h : ref' ≠ ref) :
    ((s.lend (some (t, ref))).sfid ref').owner = (s.sfid ref').owner :=
  congrArg SFid.owner (s.modify_sfid_of_ne _ h)

theorem Store.modify_comm (s : Store) {ref ref' : Nat} {g g' : SFid → SFid}
    (hg : ref = ref' → ∀ a, g (g' a) = g' (g a)) :
    (s.modify ref' g').modify ref g = (s.modify ref g).modify ref' g' := by
  have hsfid : ((s.modify ref' g').modify ref g).sfid = ((s.modify ref g).modify ref' g').sfid := by
    by_cases heq : ref = ref'
    · subst heq
      simp only [Store.modify, Function.update_self, Function.update_idem, hg rfl]
    · simp only [Store.modify, Function.update_of_ne heq, Function.update_of_ne (Ne.symm heq)]
      exact Function.update_comm (Ne.symm heq) ..
  unfold Store.modify at hsfid ⊢
  simp only at hsfid ⊢
  rw [hsfid]

theorem Store.lend_modify (s : Store) {t₀ ref₀ ref : Nat} {g : SFid → SFid}
    (hg : ref = ref₀ → ∀ a, g { a with owner := some t₀ } = { g a with owner := some t₀ }) :
    (s.lend (some (t₀, ref₀))).modify ref g = (s.modify ref g).lend (some (t₀, ref₀)) :=
  s.modify_comm hg

theorem Store.lend_bindNew (s : Store) (t : Nat) (fid : Fid) {t₀ ref₀ : Nat} (h : ref₀ < s.next) :
    (s.lend (some (t₀, ref₀))).bindNew t fid = (s.bindNew t fid).lend (some (t₀, ref₀)) := by
  have hsfid : ((s.lend (some (t₀, ref₀))).bindNew t fid).sfid =
      ((s.bindNew t fid).lend (some (t₀, ref₀))).sfid := by
    simp only [Store.lend, Store.modify, Store.bindNew, Table.bindNew,
      Function.update_of_ne (Nat.ne_of_lt h)]
    exact Function.update_comm (Nat.ne_of_lt h) ..
  unfold Store.lend Store.bindNew Table.bindNew Store.modify at hsfid ⊢
  simp only at hsfid ⊢
  rw [hsfid]

/-- A command of another thread does the same in the store with the mutex on
loan, unless it locks that mutex. -/
theorem exec_lend (h : exec s t c env = some (r, s')) (l : Option (Nat × Nat))
    (hl : ∀ t' ref, l = some (t', ref) → (s.sfid ref).owner = none ∧ ref < s.next ∧ c ≠ .lock ref) :
    exec (s.lend l) t c env = some (r, s'.lend l) := by
  cases l with
  | none => exact h
  | some l =>
      obtain ⟨t₀, ref₀⟩ := l
      obtain ⟨hfree, hlt, hlock⟩ := hl t₀ ref₀ rfl
      cases c with
      | load fid =>
          cases h
          rfl
      | storeNew fid =>
          simp only [exec] at h
          split at h
          · rename_i ref href
            cases h
            have href' : (s.lend (some (t₀, ref₀))).refs fid = some ref := href
            simp only [exec, href']
          · rename_i href
            cases h
            have href' : (s.lend (some (t₀, ref₀))).refs fid = none := href
            simp only [exec, href', s.lend_bindNew t fid hlt]
            rfl
      | loadAndDelete fid =>
          simp only [exec] at h
          split at h
          · rename_i href
            cases h
            have href' : (s.lend (some (t₀, ref₀))).refs fid = none := href
            simp only [exec, href']
          · rename_i ref href
            cases h
            have href' : (s.lend (some (t₀, ref₀))).refs fid = some ref := href
            simp only [exec, href']
            rfl
      | delete fid =>
          cases h
          rfl
      | lock ref =>
          obtain ⟨hnone, rfl⟩ := exec_lock h
          have hne : ref ≠ ref₀ := fun heq => hlock (heq ▸ rfl)
          have hnone' := (s.lend_owner_of_ne (t := t₀) hne).trans hnone
          simp only [exec, hnone']
          exact congrArg (fun s => some ((), s)) (s.lend_modify fun heq => absurd heq hne)
      | unlock ref =>
          have hne : ref ≠ ref₀ := by
            rintro rfl
            simp only [exec, hfree] at h
            cases h
          obtain rfl := exec_unlock h
          cases howner : (s.sfid ref).owner with
          | none =>
              simp only [exec, howner] at h
              cases h
          | some t' =>
              have howner' := (s.lend_owner_of_ne (t := t₀) hne).trans howner
              simp only [exec, howner']
              exact congrArg (fun s => some ((), s)) (s.lend_modify fun heq => absurd heq hne)
      | getEnt ref =>
          cases h
          exact congrArg (fun r => some (r, s.lend (some (t₀, ref₀))))
            (s.lend_field SFid.ent (some (t₀, ref₀)) (fun _ _ => rfl) ref)
      | getFile ref =>
          cases h
          exact congrArg (fun r => some (r, s.lend (some (t₀, ref₀))))
            (s.lend_field SFid.file (some (t₀, ref₀)) (fun _ _ => rfl) ref)
      | getMode ref =>
          cases h
          exact congrArg (fun r => some (r, s.lend (some (t₀, ref₀))))
            (s.lend_field SFid.mode (some (t₀, ref₀)) (fun _ _ => rfl) ref)
      | setEnt ref e =>
          cases h
          exact congrArg (fun s => some ((), s)) (s.lend_modify fun _ _ => rfl)
      | setFile ref file =>
          cases h
          exact congrArg (fun s => some ((), s)) (s.lend_modify fun _ _ => rfl)
      | setMode ref mode =>
          cases h
          exact congrArg (fun s => some ((), s)) (s.lend_modify fun _ _ => rfl)
      | enter c =>
          cases h
          rfl
      | leave c =>
          cases h
          rfl

/-! ## The invariants of the operations -/

structure Orderly (s : Store) (f : Nat → Ghost) (x : Nat → Hand) : Prop where
  locks : Locks s f
  records : Records s f
  exclusive : Exclusive s f
  bindings : Bindings s f
  accounts : Accounts s f x
  stored : ∀ fid ref, s.refs fid = some ref → ∃ t, .stored t fid ref ∈ s.log

theorem exec_stored (h : exec s t c env = some (r, s'))
    (hs : ∀ fid ref, s.refs fid = some ref → ∃ t, .stored t fid ref ∈ s.log) (fid : Fid)
    (ref : Nat) (href : s'.refs fid = some ref) : ∃ t, .stored t fid ref ∈ s'.log := by
  have hunbind : ∀ {fid' : Fid} {ev : Event}, (s.unbind fid').refs fid = some ref →
      ∃ t, .stored t fid ref ∈ s.log ++ [ev] := by
    intro fid' ev href
    rcases Custody.of_update_eq_some href with ⟨-, ⟨⟩⟩ | ⟨-, href⟩
    obtain ⟨t, hm⟩ := hs fid ref href
    exact ⟨t, List.mem_append_left _ hm⟩
  cases c with
  | storeNew fid' =>
      rcases exec_storeNew h with ⟨rfl, rfl⟩ | ⟨-, rfl, rfl⟩
      · exact hs fid ref href
      · rcases Custody.of_update_eq_some href with ⟨rfl, ⟨⟩⟩ | ⟨-, href⟩
        · exact ⟨t, List.mem_append_right _ List.mem_cons_self⟩
        · obtain ⟨t, hm⟩ := hs fid ref href
          exact ⟨t, List.mem_append_left _ hm⟩
  | loadAndDelete fid' =>
      rcases exec_loadAndDelete h with ⟨rfl, rfl⟩ | ⟨ref', -, rfl, rfl⟩
      · exact hs fid ref href
      · exact hunbind href
  | delete fid' =>
      cases h
      exact hunbind href
  | lock ref' =>
      obtain ⟨-, rfl⟩ := exec_lock h
      exact hs fid ref href
  | unlock ref' =>
      obtain rfl := exec_unlock h
      exact hs fid ref href
  | load _ | getEnt _ | setEnt _ _ | getFile _ | setFile _ _ | getMode _ | setMode _ _ =>
      cases h
      exact hs fid ref href
  | enter _ | leave _ =>
      cases h
      obtain ⟨t, hm⟩ := hs fid ref href
      exact ⟨t, List.mem_append_left _ hm⟩

namespace Orderly

theorem init : Orderly init (fun _ => Ghost.idle) fun _ => Hand.idle :=
  ⟨Locks.idle _, Records.init _ rfl, Exclusive.init _ rfl fun _ => rfl, Bindings.init,
    Accounts.init rfl, nofun⟩

theorem start (I : Orderly s f x) (op : Op) (hf : f t = Ghost.idle) (hx : x t = Hand.idle) :
    Orderly (start s t op) (Function.update f t (Ghost.begin op))
      (Function.update x t (Hand.begin op)) := by
  obtain ⟨-, hexclusive⟩ := exclusion.start_inv op ⟨I.locks, I.exclusive⟩ hf
  obtain ⟨hlocks, hrecords, hbindings⟩ :=
    keeping.start_inv op ⟨I.locks, I.records, I.bindings⟩ hf
  refine ⟨hlocks, hrecords, hexclusive, hbindings, I.accounts.start op hx, ?_⟩
  intro fid ref href
  obtain ⟨t, hm⟩ := I.stored fid ref href
  exact ⟨t, List.mem_append_left _ hm⟩

/-- A command that both disciplines allow. -/
theorem step (I : Orderly s f x) (h : exec s t c env = some (r, s')) (hpre : (f t).pre c)
    (hx : (x t).pre c) (hguard : Undisturbed s t c env) :
    ∃ o, (f t).post c r o ∧ (x t).Allows c r ∧
      Orderly s' (Function.update f t o) (Function.update x t ((x t).after c r)) := by
  obtain ⟨o, hpost, hlocks⟩ := I.locks.step hpre h
  obtain ⟨hallows, haccounts⟩ := I.accounts.step I.locks I.records hpre hx h hpost
  exact ⟨o, hpost, hallows, hlocks, I.records.step hpre h hpost,
    I.exclusive.step I.locks hpre h hpost,
    I.bindings.step I.locks I.records hpre hguard h hpost, haccounts, exec_stored h I.stored⟩

/-- The next command of the same thread. -/
theorem next {o : Ghost} {y : Hand}
    (I : Orderly s (Function.update f t o) (Function.update x t y))
    (h : exec s t c env = some (r, s')) (hpre : o.pre c) (hy : y.pre c)
    (hguard : Undisturbed s t c env) :
    ∃ o', o.post c r o' ∧ y.Allows c r ∧
      Orderly s' (Function.update f t o') (Function.update x t (y.after c r)) := by
  have hstep := I.step h (by rwa [Function.update_self]) (by rwa [Function.update_self]) hguard
  rw [Function.update_self, Function.update_self] at hstep
  obtain ⟨o', hpost, hallows, I'⟩ := hstep
  rw [Function.update_idem, Function.update_idem] at I'
  exact ⟨o', hpost, hallows, I'⟩

end Orderly

/-! ## Stop as if it locked -/

/-- The ghost value and the hand of `Stop` at a stage, if it had locked the
`SFid` it is busy with. -/
def Stage.Fits (stage : Stage) (o : Ghost) (y : Hand) : Prop :=
  o.op = none ∧ y.taken = none ∧ y.fresh = none ∧
    match stage with
    | .between _ => o.calling = none ∧ o.held = noLocks
    | .loaded _ ref => o.calling = none ∧ o.held = noLocks ∧ o.known = some ref
    | .found _ ref d => o.calling = none ∧ o.held = Function.update noLocks ref (.live (some d)) ∧
        o.last = some ref ∧ y.focus = some (ref, d)
    | .calling _ ref d => o.calling = some (.clunk d) ∧
        o.held = Function.update noLocks ref .stale ∧ y.focus = some (ref, d) ∧ y.spent
    | .released _ ref d => o.calling = none ∧ o.held = Function.update noLocks ref .stale ∧
        y.focus = some (ref, d) ∧ y.spent

theorem update_noLocks_free (ref : Nat) (slot : Slot) :
    Function.update (Function.update noLocks ref slot) ref .free = noLocks := by
  rw [Function.update_idem]
  exact Function.update_eq_self ref noLocks

/-- The mutex is given back. -/
theorem Store.unlend (s : Store) {t ref : Nat} (h : (s.sfid ref).owner = none) :
    (s.lend (some (t, ref))).modify ref (fun g => { g with owner := none }) = s := by
  have hsfid : ((s.lend (some (t, ref))).modify ref fun g => { g with owner := none }).sfid =
      s.sfid := by
    simp only [Store.lend, Store.modify, Function.update_self, Function.update_idem, ← h]
    exact Function.update_eq_self ref s.sfid
  unfold Store.lend Store.modify at hsfid ⊢
  simp only at hsfid ⊢
  rw [hsfid]

theorem exec_unlock_lend (s : Store) {t ref : Nat} (env : Env) (h : (s.sfid ref).owner = none) :
    exec (s.lend (some (t, ref))) t (.unlock ref) env = some ((), s) := by
  have howner : ((s.lend (some (t, ref))).sfid ref).owner = some t := by
    simp only [Store.lend, Store.modify_sfid_self]
  simp only [exec, howner, s.unlend h]
  rfl

section Visit

variable {todo : List Fid} {ref d : Nat}

/-- `Stop` looks at `ref`: it locks it, and if its `Ent` is nil, it unlocks it
again. -/
theorem Orderly.look (I : Orderly s f x) (hfits : (Stage.loaded todo ref).Fits (f t) (x t))
    (hfree : (s.sfid ref).owner = none) :
    let stage := (Stage.loaded todo ref).after (.getEnt ref) (s.sfid ref).ent
    ∃ o y, Orderly (s.lend (stage.busy.map (t, ·))) (Function.update f t o)
      (Function.update x t y) ∧ stage.Fits o y := by
  obtain ⟨hop, htaken, hfresh, hcalling, hheld, hknown⟩ := hfits
  have hrel : (f t).Released := fun ref => congrFun hheld ref
  have hlock : exec s t (.lock ref) agreeable = some ((), s.lend (some (t, ref))) := by
    simp only [exec, hfree]
    rfl
  obtain ⟨_, ⟨-, e, rfl⟩, -, I⟩ := I.step hlock ⟨hcalling, hknown, Or.inl hrel⟩ trivial trivial
  have hslot : ((f t).lock ref e).held = Function.update noLocks ref (.live e) :=
    congrArg (Function.update · ref _) hheld
  have hlive : ((f t).lock ref e).held ref = .live e := by
    rw [hslot, Function.update_self]
  have hent : ((s.lend (some (t, ref))).sfid ref).ent = (s.sfid ref).ent :=
    s.lend_field SFid.ent _ (fun _ _ => rfl) ref
  have hget : exec (s.lend (some (t, ref))) t (.getEnt ref) agreeable =
      some ((s.sfid ref).ent, s.lend (some (t, ref))) := congrArg (fun r => some (r, _)) hent
  obtain ⟨_, ⟨he, rfl⟩, -, I⟩ := I.next hget ⟨hcalling, e, hlive⟩ trivial trivial
  cases hlive.symm.trans he
  generalize (s.sfid ref).ent = e at *
  cases e with
  | some d => exact ⟨_, _, I, hop, htaken, hfresh, hcalling, hslot, rfl, rfl⟩
  | none =>
      obtain ⟨_, rfl, -, I⟩ := I.next (exec_unlock_lend s agreeable hfree) ⟨hcalling, none, hlive⟩
        (fun h => by cases htaken.symm.trans h) trivial
      refine ⟨_, _, I, hop, ?_, hfresh, hcalling, ?_⟩
      · exact (congrArg (Option.filter _) htaken).trans rfl
      · exact (congrArg (Function.update · ref _) hslot).trans (update_noLocks_free ref _)

/-- `Stop` sets `ref.Ent` to nil, and unlocks `ref`. -/
theorem Orderly.clear (I : Orderly (s.lend (some (t, ref))) f x)
    (hfits : (Stage.released todo ref d).Fits (f t) (x t)) (hfree : (s.sfid ref).owner = none) :
    ∃ o y, Orderly (s.modify ref fun g => { g with ent := none }) (Function.update f t o)
      (Function.update x t y) ∧ (Stage.between todo).Fits o y := by
  obtain ⟨hop, htaken, hfresh, hcalling, hheld, hfocus, hspent⟩ := hfits
  have hstale : (f t).held ref = .stale := by
    rw [hheld, Function.update_self]
  have hset : exec (s.lend (some (t, ref))) t (.setEnt ref none) agreeable =
      some ((), (s.modify ref fun g => { g with ent := none }).lend (some (t, ref))) :=
    congrArg (fun s => some ((), s)) (s.lend_modify fun _ _ => rfl)
  obtain ⟨_, rfl, -, I⟩ := I.step hset ⟨hcalling, by rw [hstale]; exact nofun, nofun⟩
    (Or.inr ⟨⟨d, hfocus⟩, hspent⟩) trivial
  have hslot : ((f t).set ref (.live none)).held = Function.update noLocks ref (.live none) := by
    show Function.update (f t).held ref _ = _
    rw [hheld, Function.update_idem]
  have hlive : ((f t).set ref (.live none)).held ref = .live none := by
    rw [hslot, Function.update_self]
  have hfree' : ((s.modify ref fun g => { g with ent := none }).sfid ref).owner = none := by
    rw [Store.modify_sfid_self]
    exact hfree
  obtain ⟨_, rfl, -, I⟩ := I.next (exec_unlock_lend _ agreeable hfree') ⟨hcalling, none, hlive⟩
    (fun h => by cases htaken.symm.trans h) trivial
  refine ⟨_, _, I, hop, ?_, hfresh, hcalling, ?_⟩
  · exact (congrArg (Option.filter _) htaken).trans rfl
  · exact (congrArg (Function.update · ref _) hslot).trans (update_noLocks_free ref _)

end Visit

/-! ## The invariant -/

namespace Closing

/-- The mutex that `Stop` would have, and its thread. -/
def lent (w : Closing) : Option (Nat × Nat) := w.visit.bind fun v => v.2.busy.map (v.1, ·)

/-- The store in which `Stop` has locked the `SFid` it is busy with. -/
def shadow (w : Closing) : Store := w.pool.store.lend w.lent

end Closing

/-- What is linked behind `Stop` is what it has in hand. -/
def Stage.Swept (stage : Stage) (s : Store) : Prop :=
  ∀ fid ref d, s.refs fid = some ref → (s.sfid ref).ent = some d →
    fid ∈ stage.todo ∨ stage.hand = some ref

structure Sweeping (w : Closing) (f : Nat → Ghost) (x : Nat → Hand) : Prop where
  orderly : Orderly w.shadow f x
  free : ∀ t ref, w.lent = some (t, ref) → (w.pool.store.sfid ref).owner = none
  idle : ∀ t, w.pool.threads.length ≤ t → f t = Ghost.idle ∧ x t = Hand.idle
  ops : ∀ (t : Nat) p, w.pool.threads[t]? = some p → (∀ stage, w.visit ≠ some (t, stage)) →
    Keeps (fun _ _ => True) p (f t) ∧ Careful (fun _ y => y.Done) p (x t)
  stop : ∀ t stage, w.visit = some (t, stage) → stage.Fits (f t) (x t) ∧
    ∃ p, w.pool.threads[t]? = some p ∧ Staged (fun _ stage => stage = .between []) p stage
  swept : ∀ t stage, w.visit = some (t, stage) → stage.Swept w.pool.store

variable {w w' : Closing}

theorem Sweeping.initial : Sweeping Closing.initial (fun _ => Ghost.idle) fun _ => Hand.idle where
  orderly := Orderly.init
  free := nofun
  idle _ _ := ⟨rfl, rfl⟩
  ops t p ht := by cases ht
  stop := nofun
  swept := nofun

theorem Store.mem_bindings {ref : Nat} (hm : .stored t fid ref ∈ s.log)
    (href : s.refs fid = some ref) : (fid, ref) ∈ s.bindings :=
  List.mem_filterMap.mpr ⟨_, hm, if_pos href⟩

theorem Store.lend_refs (s : Store) (l : Option (Nat × Nat)) : (s.lend l).refs = s.refs := by
  cases l <;> rfl

theorem Store.lend_log (s : Store) (l : Option (Nat × Nat)) : (s.lend l).log = s.log := by
  cases l <;> rfl

theorem Store.lend_next (s : Store) (l : Option (Nat × Nat)) : (s.lend l).next = s.next := by
  cases l <;> rfl

theorem Store.lend_record (s : Store) (l : Option (Nat × Nat)) (ev : Event) :
    (s.record ev).lend l = (s.lend l).record ev := by
  cases l <;> rfl

/-- The entries of the table are in the list. -/
theorem Sweeping.bindings (h : Sweeping w f x) {ref : Nat}
    (href : w.pool.store.refs fid = some ref) : (fid, ref) ∈ w.pool.store.bindings := by
  have hstored := h.orderly.stored fid ref
  rw [Closing.shadow, Store.lend_refs, Store.lend_log] at hstored
  obtain ⟨t, hm⟩ := hstored href
  exact Store.mem_bindings hm href

/-! ### An operation is invoked -/

theorem Sweeping.call (h : Sweeping w f x) (op : Op) :
    Sweeping ⟨⟨start w.pool.store w.pool.threads.length op, w.pool.threads ++ [op.prog]⟩, w.visit⟩
      (Function.update f w.pool.threads.length (Ghost.begin op))
      (Function.update x w.pool.threads.length (Hand.begin op)) := by
  obtain ⟨hf, hx⟩ := h.idle _ (Nat.le_refl _)
  have hlt : ∀ {t p}, w.pool.threads[t]? = some p → t ≠ w.pool.threads.length :=
    fun ht => Nat.ne_of_lt (List.getElem?_eq_some_iff.mp ht).1
  refine ⟨?_, h.free, ?_, ?_, ?_, h.swept⟩
  · have hstart := h.orderly.start op hf hx
    rw [Session.start, Closing.shadow, ← Store.lend_record] at hstart
    exact hstart
  · intro t ht
    rw [List.length_append, List.length_singleton] at ht
    rw [Function.update_of_ne (by omega), Function.update_of_ne (by omega)]
    exact h.idle t (by omega)
  · intro t p ht hv
    rcases getElem?_snoc_cases ht with ht | ⟨rfl, rfl⟩
    · rw [Function.update_of_ne (hlt ht), Function.update_of_ne (hlt ht)]
      exact h.ops t p ht hv
    · rw [Function.update_self, Function.update_self]
      exact ⟨op.prog_safe, op.prog_careful⟩
  · intro t stage hv
    obtain ⟨hfits, p, ht, hp⟩ := h.stop t stage hv
    rw [Function.update_of_ne (hlt ht), Function.update_of_ne (hlt ht)]
    refine ⟨hfits, p, ?_, hp⟩
    rw [List.getElem?_append_left (List.getElem?_eq_some_iff.mp ht).1, ht]

/-! ### Stop is called -/

theorem Sweeping.begin (h : Sweeping w f x) (hv : w.visit = none) {fids : List Fid}
    (hfids : ∀ p ∈ w.pool.store.bindings, p.1 ∈ fids) (err : Option Err) :
    Sweeping ⟨⟨w.pool.store, w.pool.threads ++ [Session.stop err fids]⟩,
      some (w.pool.threads.length, .between fids)⟩ f x := by
  have hlent : w.lent = none := by
    rw [Closing.lent, hv]
    rfl
  refine ⟨?_, nofun, ?_, ?_, ?_, ?_⟩
  · have horderly := h.orderly
    rw [Closing.shadow, hlent] at horderly
    exact horderly
  · intro t ht
    rw [List.length_append, List.length_singleton] at ht
    exact h.idle t (by omega)
  · intro t p ht hne
    rcases getElem?_snoc_cases ht with ht | ⟨rfl, rfl⟩
    · exact h.ops t p ht (by rw [hv]; exact nofun)
    · exact absurd rfl (hne (.between fids))
  · rintro _ _ ⟨⟩
    obtain ⟨hf, hx⟩ := h.idle _ (Nat.le_refl _)
    rw [hf, hx]
    refine ⟨⟨rfl, rfl, rfl, rfl, rfl⟩, Session.stop err fids, ?_, stop_staged err fids⟩
    rw [List.getElem?_append_right (Nat.le_refl _), Nat.sub_self]
    rfl
  · rintro _ _ ⟨⟩ fid ref d href -
    exact Or.inl (hfids _ (h.bindings href))

/-! ### An operation takes a step -/

/-- A mutex that is free stays so, unless the command locks it. -/
theorem exec_owner {ref : Nat} (h : exec s t c env = some (r, s')) (hlt : ref < s.next)
    (hfree : (s.sfid ref).owner = none) (hlock : c ≠ .lock ref) : (s'.sfid ref).owner = none := by
  -- an assignment to another `SFid`, or to another field, or of nil
  have hmodify : ∀ (ref' : Nat) (g : SFid → SFid), (ref = ref' → (g (s.sfid ref)).owner = none) →
      ((s.modify ref' g).sfid ref).owner = none := by
    intro ref' g hg
    by_cases heq : ref = ref'
    · subst heq
      rw [Store.modify_sfid_self]
      exact hg rfl
    · rw [s.modify_sfid_of_ne g heq]
      exact hfree
  cases c with
  | storeNew fid =>
      rcases exec_storeNew h with ⟨rfl, rfl⟩ | ⟨-, rfl, rfl⟩
      · exact hfree
      · exact (congrArg SFid.owner (s.bindNew_sfid_of_ne t fid (Nat.ne_of_lt hlt))).trans hfree
  | loadAndDelete fid =>
      rcases exec_loadAndDelete h with ⟨rfl, rfl⟩ | ⟨ref', -, rfl, rfl⟩
      · exact hfree
      · exact hfree
  | lock ref' =>
      obtain ⟨-, rfl⟩ := exec_lock h
      exact hmodify ref' _ fun heq => absurd (heq ▸ rfl) hlock
  | unlock ref' =>
      obtain rfl := exec_unlock h
      exact hmodify ref' _ fun _ => rfl
  | setEnt ref' e | setFile ref' file | setMode ref' mode =>
      cases h
      exact hmodify ref' _ fun _ => hfree
  | load _ | delete _ | getEnt _ | getFile _ | getMode _ | enter _ | leave _ =>
      cases h
      exact hfree

/-- What is bound and linked after a command was so before, or was just
linked. -/
theorem exec_linked {ref d : Nat} (h : exec s t c env = some (r, s'))
    (href : s'.refs fid = some ref) (hd : (s'.sfid ref).ent = some d) :
    s.refs fid = some ref ∧ ((s.sfid ref).ent = some d ∨ c = .setEnt ref (some d)) := by
  have hmodify : ∀ {ref' : Nat} {g : SFid → SFid}, ((s.modify ref' g).sfid ref).ent = some d →
      (∀ a, (g a).ent = a.ent) → (s.sfid ref).ent = some d :=
    fun h hg => (s.modify_field SFid.ent _ hg ref).symm.trans h
  have hunbind : ∀ {fid' : Fid}, (s.unbind fid').refs fid = some ref → s.refs fid = some ref := by
    intro fid' href
    rcases Custody.of_update_eq_some href with ⟨-, ⟨⟩⟩ | ⟨-, href⟩
    exact href
  cases c with
  | storeNew fid' =>
      rcases exec_storeNew h with ⟨rfl, rfl⟩ | ⟨-, rfl, rfl⟩
      · exact ⟨href, Or.inl hd⟩
      · rcases Custody.of_update_eq_some href with ⟨rfl, ⟨⟩⟩ | ⟨-, href⟩
        · cases (congrArg SFid.ent (s.bindNew_sfid_next t fid)).symm.trans hd
        · refine ⟨href, Or.inl ?_⟩
          have hne : ref ≠ s.next := Nat.ne_of_lt (s.bound href)
          exact (congrArg SFid.ent (s.bindNew_sfid_of_ne t fid' hne)).symm.trans hd
  | loadAndDelete fid' =>
      rcases exec_loadAndDelete h with ⟨rfl, rfl⟩ | ⟨ref', -, rfl, rfl⟩
      · exact ⟨href, Or.inl hd⟩
      · exact ⟨hunbind href, Or.inl hd⟩
  | delete fid' =>
      cases h
      exact ⟨hunbind href, Or.inl hd⟩
  | lock ref' =>
      obtain ⟨-, rfl⟩ := exec_lock h
      exact ⟨href, Or.inl (hmodify hd fun _ => rfl)⟩
  | unlock ref' =>
      obtain rfl := exec_unlock h
      exact ⟨href, Or.inl (hmodify hd fun _ => rfl)⟩
  | setEnt ref' e =>
      cases h
      refine ⟨href, ?_⟩
      by_cases heq : ref = ref'
      · subst heq
        rw [Store.modify_sfid_self] at hd
        exact Or.inr (congrArg _ hd)
      · rw [s.modify_sfid_of_ne _ heq] at hd
        exact Or.inl hd
  | setFile ref' file | setMode ref' mode =>
      cases h
      exact ⟨href, Or.inl (hmodify hd fun _ => rfl)⟩
  | load _ | getEnt _ | getFile _ | getMode _ | enter _ | leave _ =>
      cases h
      exact ⟨href, Or.inl hd⟩

/-- The loan disturbs no operation. -/
theorem Undisturbed.lend (h : Undisturbed s t c env) (l : Option (Nat × Nat))
    (hl : ∀ t₀ ref₀, l = some (t₀, ref₀) → ∀ fid ref, .stored t₀ fid ref ∉ s.log) :
    Undisturbed (s.lend l) t c env := by
  cases l with
  | none => exact h
  | some l =>
      obtain ⟨t₀, ref₀⟩ := l
      cases c with
      | storeNew fid =>
          intro hnone ev hev
          have hold := h hnone ev hev
          cases ev with
          | stored t' fid' ref =>
              refine decide_eq_false ?_
              rintro ⟨rfl, howner⟩
              by_cases heq : ref = ref₀
              · subst heq
                simp only [Store.lend, Store.modify_sfid_self] at howner
                cases howner
                exact hl _ _ rfl _ _ hev
              · rw [s.lend_owner_of_ne heq] at howner
                exact of_decide_eq_false hold ⟨rfl, howner⟩
          | _ => rfl
      | leave c => exact h
      | _ => trivial

variable {stage : Stage}

/-- The `SFid` that `Stop` is busy with is allocated. -/
theorem Stage.Fits.lt (hfits : stage.Fits (f t) (x t)) (L : Locks s f) {ref : Nat}
    (hbusy : stage.busy = some ref) : ref < s.next := by
  have hne : ∀ {slot : Slot}, (f t).held = Function.update noLocks ref slot → slot ≠ .free →
      ref < s.next := by
    intro slot hheld hslot
    refine (L.owner (t := t) ?_).1
    rw [hheld, Function.update_self]
    exact hslot
  cases stage with
  | between todo => cases hbusy
  | loaded todo ref' => cases hbusy
  | found todo ref' d =>
      cases hbusy
      exact hne hfits.2.2.2.2.1 nofun
  | calling todo ref' d =>
      cases hbusy
      exact hne hfits.2.2.2.2.1 nofun
  | released todo ref' d =>
      cases hbusy
      exact hne hfits.2.2.2.2.1 nofun

theorem Closing.lent_eq_some {t ref : Nat} (h : w.lent = some (t, ref)) :
    ∃ stage, w.visit = some (t, stage) ∧ stage.busy = some ref := by
  obtain ⟨⟨t', stage⟩, hv, hmap⟩ := Option.bind_eq_some_iff.mp h
  obtain ⟨ref', hbusy, heq⟩ := Option.map_eq_some_iff.mp hmap
  cases heq
  exact ⟨stage, hv, hbusy⟩

theorem Sweeping.run_op (h : Sweeping w f x) (hv : ∀ stage, w.visit ≠ some (t, stage))
    {k : c.Res → M Ret} (ht : w.pool.threads[t]? = some (.cmd c k))
    (hexec : exec w.pool.store t c env = some (r, s')) (hguard : Undisturbed w.pool.store t c env)
    (hapart : ∀ t' stage, w.visit = some (t', stage) → OpApart w.pool.store stage c) :
    ∃ o, Sweeping ⟨⟨s', w.pool.threads.set t (k r)⟩, w.visit⟩ (Function.update f t o)
      (Function.update x t ((x t).after c r)) := by
  obtain ⟨⟨hpre, hsafe⟩, hx, hcareful⟩ := h.ops t _ ht hv
  have I := h.orderly
  -- what is known of the mutex on loan
  have hlent : ∀ t' ref, w.lent = some (t', ref) → (w.pool.store.sfid ref).owner = none ∧
      ref < w.pool.store.next ∧ c ≠ .lock ref := by
    intro t' ref hl
    obtain ⟨stage, hvisit, hbusy⟩ := Closing.lent_eq_some hl
    refine ⟨h.free t' ref hl, ?_, ?_⟩
    · have hlt := (h.stop t' stage hvisit).1.lt I.locks hbusy
      rwa [Closing.shadow, Store.lend_next] at hlt
    · rintro rfl
      exact hapart t' stage hvisit hbusy
  have hguard' : Undisturbed w.shadow t c env := by
    refine hguard.lend w.lent ?_
    intro t₀ ref₀ hl fid ref hm
    obtain ⟨stage, hvisit, -⟩ := Closing.lent_eq_some hl
    refine (I.records.stored_by t₀ fid ref ?_).1 (h.stop t₀ stage hvisit).1.1
    rwa [Closing.shadow, Store.lend_log]
  obtain ⟨o, hpost, hallows, I'⟩ := I.step (exec_lend hexec w.lent hlent) hpre hx hguard'
  refine ⟨o, I', ?_, ?_, ?_, ?_, ?_⟩
  · intro t' ref hl
    obtain ⟨hfree, hlt, hlock⟩ := hlent t' ref hl
    exact exec_owner hexec hlt hfree hlock
  · intro t' ht'
    rw [List.length_set] at ht'
    have hlt := (List.getElem?_eq_some_iff.mp ht).1
    rw [Function.update_of_ne (by omega), Function.update_of_ne (by omega)]
    exact h.idle t' ht'
  · intro t' p ht' hne
    rcases getElem?_set_cases ht' with ⟨rfl, rfl⟩ | ⟨hne', ht'⟩
    · rw [Function.update_self, Function.update_self]
      exact ⟨hsafe r o hpost, hcareful r _ ⟨hallows, rfl⟩⟩
    · rw [Function.update_of_ne hne', Function.update_of_ne hne']
      exact h.ops t' p ht' hne
  · intro t' stage hvisit
    have hne : t' ≠ t := by
      rintro rfl
      exact hv stage hvisit
    obtain ⟨hfits, p, ht', hp⟩ := h.stop t' stage hvisit
    rw [Function.update_of_ne hne, Function.update_of_ne hne]
    refine ⟨hfits, p, ?_, hp⟩
    rw [List.getElem?_set_ne (Ne.symm hne), ht']
  · intro t' stage hvisit fid ref d href hd
    obtain ⟨href', hd' | rfl⟩ := exec_linked hexec href hd
    · exact h.swept t' stage hvisit fid ref d href' hd'
    · exact hapart t' stage hvisit _ (h.bindings href') rfl

/-! ### Stop takes a step -/

theorem Stage.Swept.step (hswept : stage.Swept s) (hpre : stage.pre c)
    (h : exec s t c env = some (r, s')) : (stage.after c r).Swept s' := by
  intro fid ref d href hd
  obtain ⟨href', hd' | rfl⟩ := exec_linked h href hd
  swap
  · cases stage with
    | released todo ref' d' => cases hpre.2
    | _ => cases hpre
  have hold := hswept fid ref d href' hd'
  cases stage with
  | between todo =>
      cases c with
      | load fid' =>
          cases h
          obtain ⟨todo, rfl⟩ := List.head?_eq_some_iff.mp hpre
          rcases hold with hmem | hnone
          · rcases List.mem_cons.mp hmem with rfl | hmem
            · rw [href']
              exact Or.inr rfl
            · cases s.refs fid' <;> exact Or.inl hmem
          · cases hnone
      | _ => cases hpre
  | loaded todo ref' =>
      cases c with
      | getEnt ref'' =>
          cases h
          cases hpre
          rcases hold with hmem | hhand
          · cases (s.sfid ref').ent <;> exact Or.inl hmem
          · cases hhand
            rw [hd']
            exact Or.inr rfl
      | _ => cases hpre
  | found todo ref' d' =>
      cases c with
      | getEnt _ | enter _ => exact hold
      | _ => cases hpre
  | calling todo ref' d' =>
      cases c with
      | leave _ => exact hold
      | _ => cases hpre
  | released todo ref' d' =>
      cases c with
      | setEnt ref'' e =>
          cases h
          obtain ⟨rfl, rfl⟩ := hpre
          rcases hold with hmem | hhand
          · exact Or.inl hmem
          · cases hhand
            rw [Store.modify_sfid_self] at hd
            cases hd
      | _ => cases hpre

section Visit

variable {todo : List Fid} {ref d : Nat}

theorem Orderly.fetch (I : Orderly s f x) (hfits : (Stage.between todo).Fits (f t) (x t))
    (fid : Fid) (env : Env) :
    let stage := (Stage.between todo).after (.load fid) (s.refs fid)
    ∃ o y, Orderly s (Function.update f t o) (Function.update x t y) ∧ stage.Fits o y := by
  obtain ⟨hop, htaken, hfresh, hcalling, hheld⟩ := hfits
  have hload : exec s t (.load fid) env = some (s.refs fid, s) := rfl
  obtain ⟨_, rfl, -, I⟩ := I.step hload hcalling trivial trivial
  refine ⟨_, _, I, ?_⟩
  cases s.refs fid with
  | none => exact ⟨hop, htaken, hfresh, hcalling, hheld⟩
  | some ref => exact ⟨hop, htaken, hfresh, hcalling, hheld, rfl⟩

/-- A command of `Stop` that leaves the mutex on loan. -/
theorem Orderly.proceed (I : Orderly (s.lend (some (t, ref))) f x) (hlt : ref < s.next)
    (hfree : (s.sfid ref).owner = none) (h : exec s t c env = some (r, s'))
    (hlock : c ≠ .lock ref) (hpre : (f t).pre c) (hx : (x t).pre c)
    (hguard : Undisturbed (s.lend (some (t, ref))) t c env) :
    ∃ o, (f t).post c r o ∧ Orderly (s'.lend (some (t, ref))) (Function.update f t o)
      (Function.update x t ((x t).after c r)) ∧ (s'.sfid ref).owner = none := by
  have hexec := exec_lend h (some (t, ref)) (by rintro _ _ ⟨⟩; exact ⟨hfree, hlt, hlock⟩)
  obtain ⟨o, hpost, -, I'⟩ := I.step hexec hpre hx hguard
  exact ⟨o, hpost, I', exec_owner h hlt hfree hlock⟩

end Visit

/-- What `Stop` does keeps the invariants, and takes it to its next stage. -/
theorem Orderly.visit (I : Orderly (s.lend (stage.busy.map (t, ·))) f x)
    (hfits : stage.Fits (f t) (x t))
    (hfree : ∀ ref, stage.busy = some ref → (s.sfid ref).owner = none) (hpre : stage.pre c)
    (hapart : StopApart s c) (h : exec s t c env = some (r, s')) :
    ∃ o y, Orderly (s'.lend ((stage.after c r).busy.map (t, ·))) (Function.update f t o)
      (Function.update x t y) ∧ (stage.after c r).Fits o y ∧ stage.Allows c r ∧
      ∀ ref, (stage.after c r).busy = some ref → (s'.sfid ref).owner = none := by
  have hlt : ∀ {ref}, stage.busy = some ref → ref < s.next := by
    intro ref hbusy
    have hlt := hfits.lt I.locks hbusy
    rwa [Store.lend_next] at hlt
  cases stage with
  | between todo =>
      cases c with
      | load fid =>
          cases h
          obtain ⟨o, y, I', hfits'⟩ := Orderly.fetch (s := s) I hfits fid env
          generalize s.refs fid = ref at *
          cases ref <;> exact ⟨o, y, I', hfits', trivial, by rintro _ ⟨⟩⟩
      | _ => cases hpre
  | loaded todo ref =>
      cases c with
      | getEnt ref' =>
          cases h
          cases hpre
          obtain ⟨o, y, I', hfits'⟩ := Orderly.look (s := s) I hfits hapart
          generalize (s.sfid ref).ent = e at *
          refine ⟨o, y, I', hfits', trivial, ?_⟩
          cases e with
          | none => rintro _ ⟨⟩
          | some d =>
              rintro _ ⟨⟩
              exact hapart
      | _ => cases hpre
  | found todo ref d =>
      obtain ⟨hop, htaken, hfresh, hcalling, hheld, hlast, hfocus⟩ := hfits
      have hlive : (f t).held ref = .live (some d) := by
        rw [hheld, Function.update_self]
      cases c with
      | getEnt ref' =>
          cases hpre
          obtain ⟨_, ⟨he, rfl⟩, I', hfree'⟩ := I.proceed (hlt rfl) (hfree _ rfl) h
            (by rintro ⟨⟩) ⟨hcalling, _, hlive⟩ trivial trivial
          cases hlive.symm.trans he
          refine ⟨_, _, I', ⟨hop, htaken, hfresh, hcalling, hheld, hlast, rfl⟩, rfl, ?_⟩
          rintro _ ⟨⟩
          exact hfree'
      | enter call =>
          cases hpre
          have hmay : (f t).MayCall (.clunk d) := by
            refine ⟨?_, fun _ => ⟨ref, hlast, hlive⟩, by rintro _ ⟨⟩⟩
            rintro _ ⟨⟩
            exact Or.inr ⟨ref, hlive⟩
          obtain ⟨_, rfl, I', hfree'⟩ := I.proceed (hlt rfl) (hfree _ rfl) h
            (by rintro ⟨⟩) ⟨hcalling, hmay⟩ trivial trivial
          refine ⟨_, _, I', ⟨hop, htaken, hfresh, rfl, ?_, hfocus, ?_⟩, trivial, ?_⟩
          · funext ref'
            simp only [Ghost.enter, Call.releases, hlast, hheld, Function.update_apply, true_and,
              Option.some.injEq, eq_comm]
            split <;> rfl
          · simp only [Hand.after, Call.releases, Call.dirent, hfocus, Option.map_some, decide_true,
              Bool.and_self, Bool.or_true]
          · rintro _ ⟨⟩
            exact hfree'
      | _ => cases hpre
  | calling todo ref d =>
      obtain ⟨hop, htaken, hfresh, hcalling, hheld, hfocus, hspent⟩ := hfits
      cases c with
      | leave call =>
          cases hpre
          obtain ⟨_, rfl, I', hfree'⟩ := I.proceed (hlt rfl) (hfree _ rfl) h
            (by rintro ⟨⟩) hcalling (fun _ _ _ => hfresh) fun _ => rfl
          refine ⟨_, _, I', ⟨hop, htaken, hfresh, rfl, hheld, hfocus, ?_⟩, trivial, ?_⟩
          · exact congrArg (· || _) hspent
          · rintro _ ⟨⟩
            exact hfree'
      | _ => cases hpre
  | released todo ref d =>
      cases c with
      | setEnt ref' e =>
          cases h
          obtain ⟨rfl, rfl⟩ := hpre
          obtain ⟨o, y, I', hfits'⟩ := Orderly.clear (s := s) I hfits (hfree _ rfl)
          exact ⟨o, y, I', hfits', trivial, by rintro _ ⟨⟩⟩
      | _ => cases hpre

theorem Sweeping.run_stop (h : Sweeping w f x) (hv : w.visit = some (t, stage))
    {k : c.Res → M Ret} (ht : w.pool.threads[t]? = some (.cmd c k))
    (hexec : exec w.pool.store t c env = some (r, s')) (hapart : StopApart w.pool.store c) :
    ∃ o y, Sweeping ⟨⟨s', w.pool.threads.set t (k r)⟩, some (t, stage.after c r)⟩
      (Function.update f t o) (Function.update x t y) := by
  have hlt := (List.getElem?_eq_some_iff.mp ht).1
  have hlent : w.lent = stage.busy.map (t, ·) := by
    rw [Closing.lent, hv]
    rfl
  have I := h.orderly
  rw [Closing.shadow, hlent] at I
  obtain ⟨hfits, p, htp, hp⟩ := h.stop t stage hv
  cases Option.some.inj (htp.symm.trans ht)
  obtain ⟨hpre, hstaged⟩ := hp
  obtain ⟨o, y, I', hfits', hallows, hfree'⟩ := I.visit hfits
    (fun ref hbusy => h.free t ref (by rw [hlent, hbusy]; rfl)) hpre hapart hexec
  refine ⟨o, y, I', ?_, ?_, ?_, ?_, ?_⟩
  · intro t' ref hl
    obtain ⟨_, ⟨⟩, hbusy⟩ := Closing.lent_eq_some hl
    exact hfree' ref hbusy
  · intro t' ht'
    rw [List.length_set] at ht'
    rw [Function.update_of_ne (by omega), Function.update_of_ne (by omega)]
    exact h.idle t' ht'
  · intro t' p ht' hne
    rcases getElem?_set_cases ht' with ⟨rfl, -⟩ | ⟨hne', ht'⟩
    · exact absurd rfl (hne _)
    · rw [Function.update_of_ne hne', Function.update_of_ne hne']
      refine h.ops t' p ht' ?_
      rw [hv]
      rintro _ ⟨⟩
      exact hne' rfl
  · rintro _ _ ⟨⟩
    rw [Function.update_self, Function.update_self]
    refine ⟨hfits', k r, ?_, hstaged r _ ⟨hallows, rfl⟩⟩
    rw [List.getElem?_set_self hlt]
  · rintro _ _ ⟨⟩
    exact (h.swept t stage hv).step hpre hexec

/-! ## Every run that meets the condition -/

theorem Sweeping.step (h : Sweeping w f x) {a : Sched Request Env} (ha : ApartStep w a)
    (hstep : w.step a = some w') : ∃ f' x', Sweeping w' f' x' := by
  cases a with
  | invoke req =>
      cases req with
      | call op =>
          cases hstep
          exact ⟨_, _, h.call op⟩
      | stop err fids =>
          simp only [Closing.step] at hstep
          split at hstep
          · rename_i hv
            cases hstep
            exact ⟨_, _, h.begin hv ha err⟩
          · cases hstep
  | run t env =>
      simp only [Closing.step] at hstep
      split at hstep
      · rename_i c k ht
        obtain ⟨⟨r, s'⟩, hexec, rfl⟩ := Option.map_eq_some_iff.mp hstep
        simp only [ApartStep, ht, ApartThread, ApartCmd] at ha
        split at ha
        · rename_i hv
          rw [hv]
          obtain ⟨o, h'⟩ := h.run_op (by rw [hv]; exact nofun) ht hexec ha (by rw [hv]; exact nofun)
          rw [hv] at h'
          exact ⟨_, _, h'⟩
        · rename_i t' stage hv
          split at ha
          · rename_i heq
            subst heq
            obtain ⟨o, y, h'⟩ := h.run_stop hv ht hexec ha
            rw [hv, Option.map_some, if_pos rfl]
            exact ⟨_, _, h'⟩
          · rename_i hne
            have hvisit : ∀ t'' stage', w.visit = some (t'', stage') →
                t'' = t' ∧ stage' = stage := by
              rw [hv]
              rintro _ _ ⟨⟩
              exact ⟨rfl, rfl⟩
            obtain ⟨o, h'⟩ := h.run_op (fun _ hv' => hne (hvisit _ _ hv').1.symm) ht hexec ha.2
              (fun _ _ hv' => (hvisit _ _ hv').2 ▸ ha.1)
            rw [hv, Option.map_some, if_neg hne, ← hv]
            exact ⟨_, _, h'⟩
      · cases hstep

theorem Closing.shadow_ent (w : Closing) (ref : Nat) :
    (w.shadow.sfid ref).ent = (w.pool.store.sfid ref).ent :=
  w.pool.store.lend_field SFid.ent w.lent (fun _ _ => rfl) ref

section Results

variable (h : Sweeping w f x)

include h

theorem Sweeping.nonNil {ref : Nat} {k : Option Nat → M Ret}
    (ht : w.pool.threads[t]? = some (.cmd (.getEnt ref) k)) (hk : k none = .crash) :
    (w.pool.store.sfid ref).ent ≠ none := by
  intro hnone
  rw [← w.shadow_ent] at hnone
  have hfocus : ∀ d, (x t).focus ≠ some (ref, d) := by
    intro d hd
    cases ((h.orderly.accounts.holds t).focus ref d hd).2.1.symm.trans hnone
  by_cases hv : ∃ stage, w.visit = some (t, stage)
  · obtain ⟨stage, hv⟩ := hv
    obtain ⟨hfits, p, htp, hp⟩ := h.stop t stage hv
    cases Option.some.inj (htp.symm.trans ht)
    obtain ⟨hpre, hstaged⟩ := hp
    cases stage with
    | loaded todo ref' =>
        have hcrash := hstaged none _ ⟨trivial, rfl⟩
        rw [hk] at hcrash
        exact hcrash
    | found todo ref' d =>
        cases hpre
        exact hfocus d hfits.2.2.2.2.2.2
    | _ => cases hpre
  · obtain ⟨-, -, hcareful⟩ := h.ops t _ ht fun stage hv' => hv ⟨stage, hv'⟩
    have hcrash := hcareful none _ ⟨fun d hd => absurd hd (hfocus d), rfl⟩
    rw [hk] at hcrash
    cases hcrash

/-- When all have returned, their hands are empty. -/
theorem Sweeping.empty (hret : ∀ p ∈ w.pool.threads, ∃ r, p = .ret r) (t : Nat) :
    (x t).taken = none ∧ (x t).fresh = none := by
  rcases Nat.lt_or_ge t w.pool.threads.length with hlt | hge
  · have ht := List.getElem?_eq_getElem hlt
    obtain ⟨r, hr⟩ := hret _ (List.getElem_mem hlt)
    by_cases hv : ∃ stage, w.visit = some (t, stage)
    · obtain ⟨stage, hv⟩ := hv
      obtain ⟨⟨-, htaken, hfresh, -⟩, -⟩ := h.stop t stage hv
      exact ⟨htaken, hfresh⟩
    · obtain ⟨-, hdone⟩ := h.ops t _ ht fun stage hv' => hv ⟨stage, hv'⟩
      rw [hr] at hdone
      refine ⟨hdone.taken, hdone.fresh.resolve_left ?_⟩
      intro hfailed
      have hsane := h.orderly.bindings.sane t
      rw [(h.orderly.accounts.holds t).failed hfailed] at hsane
      cases hsane
  · rw [(h.idle t hge).2]
    exact ⟨rfl, rfl⟩

theorem Sweeping.finished (hv : w.visit ≠ none) (hret : ∀ p ∈ w.pool.threads, ∃ r, p = .ret r) :
    obtained w.pool.store.log ⊆ released w.pool.store.log := by
  obtain ⟨⟨t₀, stage⟩, hv⟩ := Option.ne_none_iff_exists'.mp hv
  obtain ⟨-, p, htp, hp⟩ := h.stop t₀ stage hv
  obtain ⟨r, rfl⟩ := hret p (List.mem_of_getElem? htp)
  cases hp
  have hlog : w.shadow.log = w.pool.store.log := Store.lend_log _ _
  intro d hd
  rw [← hlog] at hd ⊢
  rcases h.orderly.accounts.kept d hd with hd | ⟨ref, -, hent⟩ | ⟨t, hfresh⟩
  · exact hd
  · exfalso
    obtain ⟨fid, href | ⟨t, -, htook, -⟩⟩ := h.orderly.bindings.kept.linked ref d hent
    · -- `Stop` has visited the fid
      rw [Closing.shadow, Store.lend_refs] at href
      rw [w.shadow_ent] at hent
      rcases h.swept t₀ _ hv fid ref d href hent with hmem | hhand
      · cases hmem
      · cases hhand
    · -- whoever took the `SFid` out has set its `Ent` to nil
      rcases h.orderly.accounts.taken t fid ref htook with htaken | hout
      · cases (h.empty hret t).1.symm.trans htaken
      · cases hout.ent.symm.trans hent
  · cases (h.empty hret t).2.symm.trans hfresh

end Results

/-- In every run whose steps all meet the condition, `Stop` and the operations
do not interfere. -/
theorem stop_safe (acts : List (Sched Request Env)) {w : Closing}
    (hg : Guarded Closing.step ApartStep Closing.initial acts)
    (hrun : Conc.exec Closing.step Closing.initial acts = some w) : StopSafe w := by
  obtain ⟨f, x, h⟩ := exec_invariant (I := fun w => ∃ f x, Sweeping w f x)
    (fun ⟨_, _, h⟩ ha hstep => h.step ha hstep) acts ⟨_, _, Sweeping.initial⟩ hg hrun
  have hlog : w.shadow.log = w.pool.store.log := Store.lend_log _ _
  refine ⟨?_, fun t ref k ht hk => h.nonNil ht hk, h.finished⟩
  rw [← hlog]
  exact h.orderly.exclusive.log

/-- `n` commands of thread `t`. -/
def goes (t n : Nat) : List (Sched Request Env) := List.replicate n (.run t agreeable)

def attached : List (Sched Request Env) := .invoke (.call (.attach 1 noFid [] [])) :: goes 0 7

/-- A `Stat` of fid 2 is under way when `Stop` is called; `Stop` visits fid 1,
and fid 2 after the `Stat`. -/
def statInFlight : List (Sched Request Env) :=
  attached ++ [.invoke (.call (.walk 1 2 []))] ++ goes 1 10 ++ [.invoke (.call (.stat 2))] ++
    goes 2 4 ++ [.invoke (.stop none [1, 2])] ++ goes 3 6 ++ goes 2 3 ++ goes 3 6

theorem stop_safe_statInFlight :
    ∃ w, Conc.exec Closing.step Closing.initial statInFlight = some w ∧
      obtained w.pool.store.log = [0, 2] ∧ released w.pool.store.log = [0, 2] ∧ StopSafe w :=
  ⟨_, rfl, rfl, rfl, stop_safe statInFlight (by decide +kernel) rfl⟩

/-! ## Stop interferes -/

/-- `Stop` has found the `Ent` of fid 1, which is then clunked by both. -/
def doubleClunk : List (Sched Request Env) :=
  attached ++ [.invoke (.stop none [1])] ++ goes 1 3 ++ [.invoke (.call (.clunk 1))] ++
    goes 2 5 ++ goes 1 1

/-- A `Stat` has read `ref.Ent`, and calls it after `Stop` has clunked it. -/
def lateStat : List (Sched Request Env) :=
  attached ++ [.invoke (.call (.stat 1))] ++ goes 1 4 ++ [.invoke (.stop none [1])] ++ goes 2 6 ++
    goes 1 1

/-- An `Open` has passed the check of `getRef` before `Stop`, and reads `ref.Ent`
again after it: for `IsDir` if it has taken four steps, and for `OpenDir` if it
has taken seven. -/
def lateOpen (n : Nat) : List (Sched Request Env) :=
  attached ++ [.invoke (.call (.open 1 0))] ++ goes 1 n ++ [.invoke (.stop none [1])] ++ goes 2 6

/-- `Stop` visits fid 1 while `Attach` has only a placeholder there. -/
def lateAttach : List (Sched Request Env) :=
  .invoke (.call (.attach 1 noFid [] [])) :: goes 0 2 ++ [.invoke (.stop none [1])] ++ goes 1 2 ++
    goes 0 5

theorem not_noUseAfterRelease {log : List Event} {t t' i d : Nat} {c c' : Call}
    (hlast : log.getLast? = some (.enter t c)) (hd : c.dirent = some d)
    (hearlier : log.dropLast[i]? = some (.enter t' c')) (hd' : c'.dirent = some d)
    (hreleases : c'.releases = true) : ¬ NoUseAfterRelease log := by
  intro h
  have hlog := (List.dropLast_append_getLast? _ hlast).symm
  cases hreleases.symm.trans
    (h.alive _ t c [] d hlog hd t' c' (List.mem_of_getElem? hearlier) hd')

theorem stop_interferes :
    (∃ w, Conc.exec Closing.step Closing.initial doubleClunk = some w ∧ ¬ StopSafe w ∧
      released w.pool.store.log = [0, 0]) ∧
    (∃ w, Conc.exec Closing.step Closing.initial lateStat = some w ∧ ¬ StopSafe w ∧
      released w.pool.store.log.dropLast = [0] ∧
      w.pool.store.log.getLast? = some (.enter 1 (.stat 0))) ∧
    (∀ n ∈ [4, 7], ∃ w, Conc.exec Closing.step Closing.initial (lateOpen n) = some w ∧
      ¬ StopSafe w ∧
      ∃ w', w.step (.run 1 agreeable) = some w' ∧ w'.pool.threads[1]? = some .crash) ∧
    ∃ w, Conc.exec Closing.step Closing.initial lateAttach = some w ∧ ¬ StopSafe w ∧
      (∀ p ∈ w.pool.threads, ∃ r, p = .ret r) ∧ obtained w.pool.store.log = [0] ∧
      released w.pool.store.log = [] := by
  refine ⟨⟨_, rfl, ?_, rfl⟩, ⟨_, rfl, ?_, rfl, rfl⟩, List.forall_mem_cons.mpr
    ⟨⟨_, rfl, ?_, _, rfl, rfl⟩, List.forall_mem_singleton.mpr ⟨_, rfl, ?_, _, rfl, rfl⟩⟩,
    ⟨_, rfl, ?_⟩⟩
  · exact fun h => not_noUseAfterRelease (i := 8) rfl rfl rfl rfl rfl h.release
  · exact fun h => not_noUseAfterRelease (i := 7) rfl rfl rfl rfl rfl h.release
  · exact fun h => h.nonNil 1 0 _ rfl rfl rfl
  · exact fun h => h.nonNil 1 0 _ rfl rfl rfl
  · suffices hret : ∀ p ∈ _, ∃ r, p = Prog.ret r by
      refine ⟨fun h => ?_, hret, rfl, rfl⟩
      exact List.not_mem_nil (h.finished nofun hret (List.mem_singleton_self 0))
    exact List.forall_mem_cons.mpr ⟨⟨_, rfl⟩, List.forall_mem_singleton.mpr ⟨_, rfl⟩⟩

end P9p.Session
